/-
# MxKeys.Server.RateLimit — the visitor table of the rate limiter.

The limiter knows its visitors twice: a map finds the list element of an IP, and a linked list has
the elements by recency.  `getVisitor` promotes, inserts and evicts, `cleanup` walks the list from
its old end and stops at the first element that is young enough.  That it finds all old ones rests
on the order of the list, and that the map and the list agree rests on every operation touching
both.  An element of the list is its address with the visitor it points to: the map holds the
address.
-/
import MxKeys.Lib.Run
import Mathlib.Data.List.Perm.Basic

namespace MxKeys.RateLimit

open MxKeys.Lib
open List Option Function

variable {IP : Type*}

/-! ## The table -/

/-- A list element and its visitor.  Of the visitor's two limiters nothing is said here. -/
structure Visitor (IP : Type*) where
  /-- The address of the element. -/
  addr : Nat
  ip : IP
  lastSeen : Int

/-- `rateLimiter`: the map of visitors by address and the list they are linked in. -/
structure RateLimiter (IP : Type*) where
  visitors : IP → Option Nat
  /-- From the most recently used to the oldest. -/
  order : List (Visitor IP)
  maxVisitors : Int
  idleTTL : Int
  /-- The address of the next element. -/
  next : Nat

def defaultMaxVisitors : Int := 100000

/-- `NewRateLimiter`. -/
def newRateLimiter (maxVisitors idleTTL : Int) : RateLimiter IP where
  visitors := fun _ => none
  order := []
  maxVisitors := if maxVisitors ≤ 0 then defaultMaxVisitors else maxVisitors
  -- ten minutes
  idleTTL := if idleTTL ≤ 0 then 600000000000 else idleTTL
  next := 0

variable [DecidableEq IP] {s : RateLimiter IP}

/-- `MoveToFront`. -/
def moveToFront (addr : Nat) (order : List (Visitor IP)) : List (Visitor IP) :=
  match order.find? fun v => v.addr = addr with
  | some v => v :: order.filter fun v => v.addr ≠ addr
  | none => order

/-- `delete(rl.visitors, v.ip)` and `rl.order.Remove(el)`. -/
def RateLimiter.remove (s : RateLimiter IP) (v : Visitor IP) : RateLimiter IP :=
  { s with
    visitors := Function.update s.visitors v.ip none
    order := s.order.filter fun w => w.addr ≠ v.addr }

/-- `evictOldestLocked`. -/
def RateLimiter.evictOldestLocked (s : RateLimiter IP) : RateLimiter IP :=
  match s.order.getLast? with
  | none => s
  | some v => s.remove v

/-- `PushFront` of a new visitor, and its entry in the map. -/
def RateLimiter.insert (s : RateLimiter IP) (ip : IP) (now : Int) : RateLimiter IP :=
  { s with
    visitors := Function.update s.visitors ip (some s.next)
    order := ⟨s.next, ip, now⟩ :: s.order
    next := s.next + 1 }

/-- `getVisitor`; the visitor it returns is the one it leaves in front. -/
def RateLimiter.getVisitor (s : RateLimiter IP) (ip : IP) (now : Int) : RateLimiter IP :=
  match s.visitors ip with
  | some el =>
    let order := s.order.map fun v => if v.addr = el then { v with lastSeen := now } else v
    { s with order := moveToFront el order }
  | none => (if s.maxVisitors ≤ s.order.length then s.evictOldestLocked else s).insert ip now

/-- The loop of `cleanup` over what is left of the way from the back to the front. -/
def RateLimiter.sweep (cutoff : Int) : List (Visitor IP) → RateLimiter IP → RateLimiter IP
  | [], s => s
  | v :: prev, s => if ¬v.lastSeen < cutoff then s else RateLimiter.sweep cutoff prev (s.remove v)

/-- `cleanup`: drops the visitors that were idle. -/
def RateLimiter.cleanup (s : RateLimiter IP) (now : Int) : RateLimiter IP :=
  s.sweep (now - s.idleTTL) s.order.reverse

/-- The calls, each with its reading of the clock. -/
inductive Call (IP : Type*)
  | getVisitor (ip : IP) (now : Int)
  | cleanup (now : Int)

/-- A table and the last reading of the clock. -/
structure Timed (IP : Type*) where
  table : RateLimiter IP
  clock : Int

/-- One call; the clock does not go back. -/
def step (s : Timed IP) : Call IP → Option (Timed IP)
  | .getVisitor ip now => if s.clock ≤ now then some ⟨s.table.getVisitor ip now, now⟩ else none
  | .cleanup now => if s.clock ≤ now then some ⟨s.table.cleanup now, now⟩ else none

/-! ## The invariant -/

/-- What the methods of the limiter keep. -/
structure RateLimiter.Kept (s : RateLimiter IP) (clock : Int) : Prop where
  /-- The map and the list hold the same visitors. -/
  indexed : ∀ ip addr, s.visitors ip = some addr ↔ ∃ v ∈ s.order, v.ip = ip ∧ v.addr = addr
  ips : (s.order.map Visitor.ip).Nodup
  addrs : (s.order.map Visitor.addr).Nodup
  allocated : ∀ v ∈ s.order, v.addr < s.next
  bounded : s.order.length ≤ s.maxVisitors
  positive : 0 < s.maxVisitors
  /-- From newest to oldest. -/
  sorted : s.order.Pairwise fun v w => w.lastSeen ≤ v.lastSeen
  seen : ∀ v ∈ s.order, v.lastSeen ≤ clock

variable {clock now : Int} {ip : IP} {v : Visitor IP} {rest : List (Visitor IP)}

omit [DecidableEq IP] in
theorem kept_new (maxVisitors idleTTL clock : Int) :
    (newRateLimiter maxVisitors idleTTL : RateLimiter IP).Kept clock := by
  have hpos : 0 < (newRateLimiter maxVisitors idleTTL : RateLimiter IP).maxVisitors := by
    unfold newRateLimiter defaultMaxVisitors
    dsimp only
    split_ifs <;> omega
  exact ⟨fun _ _ => ⟨nofun, nofun⟩, nodup_nil, nodup_nil, nofun, Int.le_of_lt hpos, hpos,
    Pairwise.nil, nofun⟩

omit [DecidableEq IP] in
theorem RateLimiter.Kept.later (h : s.Kept clock) (hnow : clock ≤ now) : s.Kept now :=
  { h with seen := fun v hv => Int.le_trans (h.seen v hv) hnow }

/-- **The old end goes**, from the list and from the map. -/
theorem RateLimiter.Kept.removeLast (h : s.Kept clock) (hs : s.order = rest ++ [v]) :
    (s.remove v).order = rest ∧ (s.remove v).Kept clock := by
  have haddrs := h.addrs
  have hips := h.ips
  have hsorted := h.sorted
  rw [hs, map_append, map_singleton, nodup_append] at haddrs hips
  rw [hs, pairwise_append] at hsorted
  have hother : ∀ w ∈ rest, w.addr ≠ v.addr ∧ w.ip ≠ v.ip := fun w hw =>
    ⟨haddrs.2.2 _ (mem_map_of_mem hw) _ (mem_singleton_self _),
      hips.2.2 _ (mem_map_of_mem hw) _ (mem_singleton_self _)⟩
  have horder : (s.remove v).order = rest := by
    show s.order.filter _ = rest
    rw [hs, filter_append, filter_eq_self.2 fun w hw => by simpa using (hother w hw).1]
    simp
  have hsub : ∀ w ∈ rest, w ∈ s.order := fun w hw => hs ▸ mem_append_left _ hw
  refine ⟨horder, ?_, ?_, ?_, ?_, ?_, h.positive, ?_, ?_⟩ <;> rw [horder]
  · intro ip addr
    by_cases hip : ip = v.ip
    · subst hip
      show update _ _ _ _ = _ ↔ _
      rw [update_self]
      exact ⟨nofun, fun ⟨w, hw, hwi, _⟩ => absurd hwi (hother w hw).2⟩
    · show update _ _ _ _ = _ ↔ _
      rw [update_of_ne hip, h.indexed, hs]
      simp only [mem_append, mem_singleton]
      constructor
      · rintro ⟨w, hw | rfl, hwi, hwa⟩
        · exact ⟨w, hw, hwi, hwa⟩
        · exact absurd hwi.symm hip
      · exact fun ⟨w, hw, hwa⟩ => ⟨w, .inl hw, hwa⟩
  · exact hips.1
  · exact haddrs.1
  · exact fun w hw => h.allocated w (hsub w hw)
  · have hb := h.bounded
    rw [hs, length_append] at hb
    show (rest.length : Int) ≤ s.maxVisitors
    omega
  · exact hsorted.1
  · exact fun w hw => h.seen w (hsub w hw)

/-- **A new visitor comes in front**, when there is room for it. -/
theorem RateLimiter.Kept.insert (h : s.Kept clock) (hnew : s.visitors ip = none)
    (hroom : s.order.length < s.maxVisitors) (hnow : clock ≤ now) :
    (s.insert ip now).Kept now := by
  have hip : ∀ w ∈ s.order, w.ip ≠ ip := fun w hw hwi => by
    have := (h.indexed ip w.addr).2 ⟨w, hw, hwi, rfl⟩
    rw [hnew] at this
    cases this
  refine ⟨fun ip' addr => ?_, nodup_cons.2 ⟨?_, h.ips⟩, nodup_cons.2 ⟨?_, h.addrs⟩, ?_, ?_,
    h.positive, pairwise_cons.2 ⟨fun w hw => Int.le_trans (h.seen w hw) hnow, h.sorted⟩, ?_⟩
  · show update _ _ _ _ = _ ↔ _
    by_cases hip' : ip' = ip
    · subst hip'
      rw [update_self]
      constructor
      · rintro ⟨⟩
        exact ⟨_, mem_cons_self, rfl, rfl⟩
      · rintro ⟨w, hw, hwi, rfl⟩
        rcases mem_cons.1 hw with rfl | hw
        · rfl
        · exact absurd hwi (hip w hw)
    · rw [update_of_ne hip', h.indexed]
      constructor
      · exact fun ⟨w, hw, hwa⟩ => ⟨w, mem_cons_of_mem _ hw, hwa⟩
      · rintro ⟨w, hw, hwi, hwa⟩
        rcases mem_cons.1 hw with rfl | hw
        · exact absurd hwi.symm hip'
        · exact ⟨w, hw, hwi, hwa⟩
  · intro hmem
    obtain ⟨w, hw, hwi⟩ := mem_map.1 hmem
    exact hip w hw hwi
  · intro hmem
    obtain ⟨w, hw, hwa⟩ := mem_map.1 hmem
    exact absurd (h.allocated w hw) (Nat.not_lt.2 (Nat.le_of_eq hwa.symm))
  · intro w hw
    rcases mem_cons.1 hw with rfl | hw
    · exact Nat.lt_succ_self _
    · exact Nat.lt_succ_of_lt (h.allocated w hw)
  · show (((s.order.length + 1 : Nat)) : Int) ≤ s.maxVisitors
    omega
  · intro w hw
    rcases mem_cons.1 hw with rfl | hw
    · exact Int.le_refl _
    · exact Int.le_trans (h.seen w hw) hnow

/-- **A known visitor comes in front.** -/
theorem RateLimiter.Kept.promote (h : s.Kept clock) {el : Nat} (hel : s.visitors ip = some el)
    (hnow : clock ≤ now) : (s.getVisitor ip now).Kept now := by
  obtain ⟨v, hv, -, rfl⟩ := (h.indexed ip el).1 hel
  obtain ⟨pre, post, horder⟩ := append_of_mem hv
  have hperm : s.order.Perm (v :: (pre ++ post)) := horder ▸ perm_middle
  have haddrs := (hperm.map Visitor.addr).nodup_iff.1 h.addrs
  have hother : ∀ w ∈ pre ++ post, w.addr ≠ v.addr := fun w hw hwa =>
    (nodup_cons.1 haddrs).1 (hwa ▸ mem_map_of_mem hw)
  -- the element is written through its pointer, then moved
  have htouch : ∀ l : List (Visitor IP), (∀ w ∈ l, w.addr ≠ v.addr) →
      (l.map fun w => if w.addr = v.addr then { w with lastSeen := now } else w) = l ∧
      (l.find? fun w => w.addr = v.addr) = none ∧ (l.filter fun w => w.addr ≠ v.addr) = l := by
    intro l hl
    refine ⟨?_, find?_eq_none.2 fun w hw => by simpa using hl w hw,
      filter_eq_self.2 fun w hw => by simpa using hl w hw⟩
    exact (map_congr_left fun w hw => if_neg (hl w hw)).trans (List.map_id' l)
  obtain ⟨hpre, hfind, hpre'⟩ := htouch pre fun w hw => hother w (mem_append_left _ hw)
  obtain ⟨hpost, -, hpost'⟩ := htouch post fun w hw => hother w (mem_append_right _ hw)
  have hnext : s.getVisitor ip now =
      { s with order := { v with lastSeen := now } :: (pre ++ post) } := by
    unfold RateLimiter.getVisitor
    rw [hel]
    dsimp only
    rw [horder, map_append, map_cons, hpre, hpost, if_pos rfl]
    unfold moveToFront
    rw [find?_append, hfind, find?_cons_of_pos (by simp), none_or]
    rw [filter_append, hpre', filter_cons_of_neg (by simp), hpost']
  have hsub : ∀ w ∈ pre ++ post, w ∈ s.order := fun w hw =>
    hperm.mem_iff.2 (mem_cons_of_mem _ hw)
  have hsorted := h.sorted
  rw [horder] at hsorted
  rw [hnext]
  refine ⟨fun ip' addr => ?_, (hperm.map Visitor.ip).nodup_iff.1 h.ips, haddrs, ?_, ?_, h.positive,
    pairwise_cons.2 ⟨fun w hw => Int.le_trans (h.seen w (hsub w hw)) hnow,
      hsorted.sublist ((sublist_cons_self v post).append_left pre)⟩, ?_⟩
  · rw [h.indexed]
    simp only [hperm.mem_iff, mem_cons, exists_eq_or_imp]
  · intro w hw
    rcases mem_cons.1 hw with rfl | hw
    · exact h.allocated v hv
    · exact h.allocated w (hsub w hw)
  · exact hperm.length_eq ▸ h.bounded
  · intro w hw
    rcases mem_cons.1 hw with rfl | hw
    · exact Int.le_refl _
    · exact Int.le_trans (h.seen w (hsub w hw)) hnow

/-- **The sweep takes off all that is old**: what it does not reach is younger than where it
stops. -/
theorem RateLimiter.Kept.sweep (h : s.Kept clock) (cutoff : Int) {way : List (Visitor IP)}
    (hway : s.order = way.reverse) : (s.sweep cutoff way).Kept clock ∧
      (s.sweep cutoff way).order = s.order.filter fun v => ¬v.lastSeen < cutoff := by
  induction way generalizing s with
  | nil => exact ⟨h, by rw [RateLimiter.sweep, hway]; rfl⟩
  | cons v prev ih =>
    rw [reverse_cons] at hway
    rw [RateLimiter.sweep]
    by_cases hyoung : ¬v.lastSeen < cutoff
    · have hsorted := h.sorted
      rw [hway, pairwise_append] at hsorted
      rw [if_pos hyoung]
      refine ⟨h, (filter_eq_self.2 fun w hw => ?_).symm⟩
      rw [hway, mem_append, mem_singleton] at hw
      rw [decide_eq_true_eq]
      rcases hw with hw | rfl
      · have := hsorted.2.2 w hw v (mem_singleton_self v)
        omega
      · exact hyoung
    · rw [if_neg hyoung]
      obtain ⟨horder, hkept⟩ := h.removeLast hway
      obtain ⟨hk, ho⟩ := ih hkept horder
      refine ⟨hk, ho.trans ?_⟩
      rw [horder, hway, filter_append, filter_cons_of_neg (by simpa using hyoung),
        filter_nil, append_nil]

/-- A full table gives up its old end. -/
theorem RateLimiter.Kept.evict (h : s.Kept clock) (hfull : s.maxVisitors ≤ s.order.length) :
    ∃ oldest rest, s.order = rest ++ [oldest] ∧
      (∀ v ∈ s.order, oldest.lastSeen ≤ v.lastSeen) ∧ s.evictOldestLocked = s.remove oldest := by
  have hpos := h.positive
  have hsorted := h.sorted
  rcases eq_nil_or_concat s.order with hnil | ⟨rest, oldest, hs⟩
  · rw [hnil, length_nil] at hfull
    omega
  rw [concat_eq_append] at hs
  rw [hs, pairwise_append] at hsorted
  refine ⟨oldest, rest, hs, fun v hv => ?_, ?_⟩
  · rw [hs, mem_append, mem_singleton] at hv
    rcases hv with hv | rfl
    · exact hsorted.2.2 v hv oldest (mem_singleton_self oldest)
    · exact Int.le_refl _
  · unfold RateLimiter.evictOldestLocked
    rw [hs, getLast?_concat]

theorem RateLimiter.Kept.getVisitor (h : s.Kept clock) (ip : IP) (hnow : clock ≤ now) :
    (s.getVisitor ip now).Kept now := by
  cases hip : s.visitors ip with
  | some el => exact h.promote hip hnow
  | none =>
    unfold RateLimiter.getVisitor
    rw [hip]
    split_ifs with hfull
    · obtain ⟨oldest, rest, hs, -, hevict⟩ := h.evict hfull
      obtain ⟨horder, hkept⟩ := h.removeLast hs
      have hb := h.bounded
      rw [hs, length_append, length_singleton] at hb
      rw [hevict]
      refine hkept.insert ?_ ?_ hnow
      · show update s.visitors oldest.ip none ip = none
        by_cases hne : ip = oldest.ip
        · rw [hne, update_self]
        · rw [update_of_ne hne, hip]
      · show ((s.remove oldest).order.length : Int) < s.maxVisitors
        rw [horder]
        omega
    · exact h.insert hip (Int.not_le.1 hfull) hnow

theorem kept_step {t u : Timed IP} {c : Call IP} (h : t.table.Kept t.clock)
    (hu : step t c = some u) : u.table.Kept u.clock := by
  cases c with
  | getVisitor ip now =>
    simp only [step, ite_none_right_eq_some, some.injEq] at hu
    obtain ⟨hnow, rfl⟩ := hu
    exact h.getVisitor ip hnow
  | cleanup now =>
    simp only [step, ite_none_right_eq_some, some.injEq] at hu
    obtain ⟨hnow, rfl⟩ := hu
    exact ((h.sweep _ (reverse_reverse _).symm).1).later hnow

/-- **The bookkeeping of the rate limiter**, after every sequence of calls whose clock does not go
back: the map and the list agree, each IP is in the table once and the table keeps its bound, the
list goes from newest to oldest, an insertion into a full table takes off one visitor that nobody
has been longer unseen than, and a cleanup takes off exactly those before the cutoff. -/
theorem visitor_table {maxVisitors idleTTL start : Int} {t : Timed IP}
    (h : Reach step anyAction ⟨newRateLimiter maxVisitors idleTTL, start⟩ t) :
    (∀ ip addr, t.table.visitors ip = some addr ↔
      ∃ v ∈ t.table.order, v.ip = ip ∧ v.addr = addr) ∧
    (t.table.order.map Visitor.ip).Nodup ∧
    t.table.order.length ≤ t.table.maxVisitors ∧
    t.table.order.Pairwise (fun v w => w.lastSeen ≤ v.lastSeen) ∧
    (∀ ip now, t.table.visitors ip = none → t.table.order.length = t.table.maxVisitors →
      ∃ oldest rest, t.table.order = rest ++ [oldest] ∧
        (∀ v ∈ t.table.order, oldest.lastSeen ≤ v.lastSeen) ∧
        (t.table.getVisitor ip now).order = ⟨t.table.next, ip, now⟩ :: rest) ∧
    ∀ now, (t.table.cleanup now).order =
      t.table.order.filter fun v => ¬v.lastSeen < now - t.table.idleTTL := by
  have hk : t.table.Kept t.clock :=
    h.invariant (P := fun t => t.table.Kept t.clock) (kept_new ..) fun _ _ _ hi _ hu =>
      kept_step hi hu
  refine ⟨hk.indexed, hk.ips, hk.bounded, hk.sorted, fun ip now hip hfull => ?_, fun now =>
    (hk.sweep _ (reverse_reverse _).symm).2⟩
  obtain ⟨oldest, rest, hs, hmin, hevict⟩ := hk.evict (Int.le_of_eq hfull.symm)
  refine ⟨oldest, rest, hs, hmin, ?_⟩
  unfold RateLimiter.getVisitor
  rw [hip]
  rw [if_pos (Int.le_of_eq hfull.symm), hevict, RateLimiter.insert, (hk.removeLast hs).1]
  rfl

/-- A visitor is cleaned up, two others come, and the first of them comes back: a third takes the
place of the second. -/
theorem visitor_table_promoted : ∃ t : Timed Nat,
    Reach step anyAction ⟨newRateLimiter 2 10, 0⟩ t ∧ t.table.order.map Visitor.ip = [7, 8] ∧
      (∃ oldest rest, t.table.order = rest ++ [oldest] ∧
        (∀ v ∈ t.table.order, oldest.lastSeen ≤ v.lastSeen) ∧
        (t.table.getVisitor 9 15).order = ⟨t.table.next, 9, 15⟩ :: rest) ∧
      (t.table.cleanup 24).order =
        t.table.order.filter fun v => ¬v.lastSeen < 24 - t.table.idleTTL := by
  have hrun : (execute step (fun _ _ => true) ⟨newRateLimiter 2 10, 0⟩
      [.getVisitor 6 0, .cleanup 11, .getVisitor 7 12, .getVisitor 8 13, .getVisitor 7 14]).map
        (fun t => (t.table.order.map Visitor.ip, t.table.visitors 9, t.table.maxVisitors)) =
      some ([7, 8], none, 2) := rfl
  obtain ⟨t, ht, hobs⟩ := reach_observe_any hrun
  simp only [Prod.mk.injEq] at hobs
  obtain ⟨hips, hfree, hmax⟩ := hobs
  have hfull : (t.table.order.length : Int) = t.table.maxVisitors := by
    rw [hmax, ← length_map (f := Visitor.ip), hips]
    rfl
  obtain ⟨-, -, -, -, hevict, hcleanup⟩ := visitor_table ht
  exact ⟨t, ht, hips, hevict 9 15 hfree hfull, hcleanup 24⟩

end MxKeys.RateLimit
