/-
# MxKeys.Raft.Rollback — what a failed `Submit` takes off the log.

`Submit` publishes its entry under the lock, writes it to the write-ahead log without the lock, and
takes it off again when the write fails.  The rollback knows its entry by the length of the log and
by the index only.  As long as no `AppendEntries` request overwrites the log at or below the index
of a `Submit` whose write is still outstanding, the entry it finds there is its own: `PendingInv`
says that such an entry stays in the log until its call returns, or that a snapshot has covered it.
-/
import MxKeys.Raft.Layout

namespace MxKeys.Raft

open MxKeys.Lib
open List Option Function

variable {N C B S : Type*}

/-- The call is between publishing its entry and the end of its write, or about to roll back. -/
def SubmitPhase.pending : SubmitPhase C → Bool
  | .published | .failed => true
  | _ => false

/-- A request that the node takes does not contradict its log at or below the index of an entry
whose `Submit` is still writing it. -/
def SparesPending (s : Cluster N C B S) : Action N C → Prop
  | .appendHandle i _ => ∀ sender peer nextIdx req,
      s.appends[i]? = some ⟨sender, peer, nextIdx, req, .sent⟩ →
      (s.node peer).currentTerm ≤ req.term →
      (s.node peer).prevMatches req.prevLogIndex req.prevLogTerm = true →
      ∀ d ∈ s.submits, d.self = peer → d.phase.pending = true →
      ∀ k entry e, req.entries[k]? = some entry → req.prevLogIndex + k + 1 ≤ d.entry.index →
        (s.node peer).entryAt (req.prevLogIndex + k + 1) = some e → e.term = entry.term
  | _ => True

/-- A call that is pending after it moved on was so before. -/
theorem CallMove.pending {cfg : Config N} {s : Cluster N C B S} {k : Nat} {c : SubmitCall N C}
    {a : Action N C} {phase : SubmitPhase C} (h : CallMove cfg s k c a phase)
    (hp : phase.pending = true) : c.phase.pending = true := by
  cases h with
  | failed hphase => rw [hphase]; rfl
  | _ => cases hp

/-! ## What keeps an entry in the log -/

section Node

variable {x : Node N C B} {e entry : LogEntry C} {log : List (LogEntry C)} {idx m : Nat}

theorem Node.Holds.index_le (h : x.Holds e) (hx : x.Indexed) : e.index ≤ x.logLen := by
  unfold Node.logLen
  rcases h with he | hle
  · obtain ⟨k, hk⟩ := mem_iff_getElem?.1 he
    have := (List.getElem?_eq_some_iff.1 hk).1
    have := hx k e hk
    omega
  · omega

/-- In a numbered log, the entries before a slot are those with a smaller index. -/
theorem Node.Indexed.mem_take (hx : x.Indexed) (he : e ∈ x.log) (hlt : e.index < idx) :
    e ∈ x.log.take (idx - x.logOffset - 1) := by
  obtain ⟨k, hk⟩ := mem_iff_getElem?.1 he
  have hidx := hx k e hk
  refine mem_of_getElem? (i := k) ?_
  rw [getElem?_take_of_lt (by omega)]
  exact hk

/-- One entry of a request that does not contradict the log up to `m` keeps the log up to `m`. -/
theorem Taken.keeps {go : Bool} (h : Taken x idx entry log go) (hx : x.Indexed)
    (hsame : idx ≤ m → ∀ f, x.entryAt idx = some f → f.term = entry.term) (he : e ∈ x.log)
    (hm : e.index ≤ m) : e ∈ log := by
  have hcut : ∀ f, x.entryAt idx = some f → f.term ≠ entry.term →
      e ∈ x.log.take (idx - x.logOffset - 1) := by
    intro f hf hne
    refine hx.mem_take he ?_
    by_contra hge
    exact hne (hsame (by omega) f hf)
  cases h with
  | keep _ => exact he
  | replace f hf hne => exact mem_append_left _ (hcut f hf hne)
  | cut f hf hne => exact hcut f hf hne
  | extend _ => exact mem_append_left _ he
  | refuse _ => exact he

/-- Nor does it put anything at a later index up to `m` that was not there. -/
theorem Taken.entryAt {go : Bool} (h : Taken x idx entry log go)
    (hsame : idx ≤ m → ∀ f, x.entryAt idx = some f → f.term = entry.term) {i : Nat} (hi : idx < i)
    (him : i ≤ m) {f : LogEntry C} (hf : (x.setLog log).entryAt i = some f) :
    x.entryAt i = some f := by
  obtain ⟨hlt, hle, _⟩ := entryAt_some hf
  cases h with
  | keep _ => exact hf
  | refuse _ => exact hf
  | replace g hg hne => exact absurd (hsame (by omega) g hg) hne
  | cut g hg hne => exact absurd (hsame (by omega) g hg) hne
  | extend hend =>
    -- the log now ends at `idx`
    unfold Node.logLen at hle hend
    simp only [Node.setLog, length_append, length_singleton] at hle
    omega

/-- **The loop over a request** that does not contradict the log up to `m` keeps the log up to
`m`. -/
theorem takeEntries_keeps (entries : List (LogEntry C)) (x : Node N C B) (prev i : Nat)
    (t p : Nat → Bool) (hx : x.Indexed) (hfit : prev + i ≤ x.logLen)
    (hnum : ∀ k e, entries[k]? = some e → e.index = prev + i + k + 1)
    (hsame : ∀ k entry f, entries[k]? = some entry → prev + i + k + 1 ≤ m →
      x.entryAt (prev + i + k + 1) = some f → f.term = entry.term)
    (he : e ∈ x.log) (hm : e.index ≤ m) : e ∈ (x.takeEntries prev i t p entries).1.log := by
  induction entries generalizing x i with
  | nil => exact he
  | cons entry rest ih =>
    obtain ⟨honly, htaken, _⟩ := takeEntry_spec x (prev + i + 1) entry (t i) (p i)
    have hfirst : prev + i + 1 ≤ m → ∀ f, x.entryAt (prev + i + 1) = some f →
        f.term = entry.term := fun hle f hf => hsame 0 entry f rfl hle hf
    have hentry : entry.index = prev + i + 1 := hnum 0 entry rfl
    unfold Node.takeEntries
    obtain ⟨⟨y, go⟩, hy⟩ : ∃ r, x.takeEntry (prev + i + 1) entry (t i) (p i) = r := ⟨_, rfl⟩
    rw [hy] at honly htaken ⊢
    obtain ⟨l, w, rfl⟩ := honly
    have hkept : e ∈ l := htaken.keeps hx hfirst he hm
    cases go with
    | false => exact hkept
    | true =>
      obtain ⟨hidx, hnext⟩ := htaken.indexed hx (by omega) hentry
      refine ih ((x.setLog l).setWal w) (i + 1) hidx (hnext rfl) (fun k f hf => ?_)
        (fun k g f hg hle hf => ?_) hkept
      · have := hnum (k + 1) f hf
        omega
      · refine hsame (k + 1) g f hg (by omega) ?_
        rw [show prev + i + (k + 1) + 1 = prev + (i + 1) + k + 1 by omega]
        exact htaken.entryAt hfirst (by omega) hle hf

/-- A whole request keeps what it does not contradict. -/
theorem handleAppendEntries_keeps (cfg : Config N) (self : N) (now : Nat) (io : AppendIo)
    (x : Node N C B) (req : AppendEntriesRequest N C) (hx : x.Indexed)
    (hs : x.snapshotIndex ≤ x.logOffset)
    (hnum : ∀ k e, req.entries[k]? = some e → e.index = req.prevLogIndex + k + 1)
    (hsame : x.currentTerm ≤ req.term →
      x.prevMatches req.prevLogIndex req.prevLogTerm = true → ∀ k entry f,
      req.entries[k]? = some entry → req.prevLogIndex + k + 1 ≤ m →
      x.entryAt (req.prevLogIndex + k + 1) = some f → f.term = entry.term)
    (he : e ∈ x.log) (hm : e.index ≤ m) :
    e ∈ (handleAppendEntries cfg self now io x req).1.log := by
  unfold handleAppendEntries
  dsimp only
  split_ifs with hstale hprev
  · exact he
  · exact he
  · have hmatch : (x.hearLeader now req.term req.leaderId req.leaderAddress).prevMatches
        req.prevLogIndex req.prevLogTerm = true := by simpa using hprev
    have hkeep := takeEntries_keeps req.entries
      (x.hearLeader now req.term req.leaderId req.leaderAddress) req.prevLogIndex 0
      (fun i => cfg.diskOk self (io.truncate i)) (fun i => cfg.diskOk self (io.persist i))
      hx (prevMatches_le hs hmatch) hnum (hsame (Nat.not_lt.1 hstale) hmatch) he hm
    split
    · rename_i y hy
      rw [hy] at hkeep
      exact hkeep
    · rename_i y hy
      rw [hy] at hkeep
      obtain ⟨c, hc, _⟩ := followCommit_eq y req.leaderCommit
        (req.prevLogIndex + req.entries.length)
      rw [hc]
      exact hkeep

/-- What a rollback takes off has the index of the entry it is for. -/
theorem rolledBackEntry_index {last : LogEntry C} {len : Nat}
    (h : x.rolledBackEntry entry len = some last) : last.index = entry.index := by
  unfold Node.rolledBackEntry at h
  split_ifs at h with hr
  simp only [Node.rollsBack, h, Bool.and_eq_true, decide_eq_true_eq] at hr
  exact hr.2

/-- A rollback leaves every entry with another index. -/
theorem Node.Holds.rollback (h : x.Holds e) {c : LogEntry C} {len : Nat}
    (hne : e.index ≠ c.index) : (submitRollback x c len).Holds e := by
  obtain ⟨_, heq⟩ | ⟨last, hlast, hget, heq⟩ := submitRollback_eq x c len
  · rw [heq]
    exact h
  · rw [heq]
    rcases h with he | hle
    · left
      show e ∈ x.log.dropLast
      rw [← dropLast_append_getLast? last hget, mem_append, mem_singleton] at he
      refine he.resolve_right ?_
      rintro rfl
      exact hne (rolledBackEntry_index hlast)
    · exact .inr hle

end Node

/-! ## The invariant -/

/-- What is known of the calls whose write is outstanding. -/
structure PendingInv (s : Cluster N C B S) : Prop where
  holds : ∀ d ∈ s.submits, d.phase.pending = true → (s.node d.self).Holds d.entry
  /-- Two of them on one node have published different indices. -/
  apart : ∀ (i j : Nat) (c d : SubmitCall N C), s.submits[i]? = some c →
    s.submits[j]? = some d → i ≠ j → c.phase.pending = true → d.phase.pending = true →
    c.self = d.self → c.entry.index ≠ d.entry.index

section

variable {cfg : Config N} {cb : Callbacks C B S} {s s' : Cluster N C B S}

/-- The calls are as before, and so are their entries. -/
theorem PendingInv.of_nodes (h : PendingInv s) (hsub : s'.submits = s.submits)
    (hnode : ∀ d ∈ s.submits, d.phase.pending = true → (s.node d.self).Holds d.entry →
      (s'.node d.self).Holds d.entry) : PendingInv s' where
  holds := by
    intro d hd hp
    rw [hsub] at hd
    exact hnode d hd hp (h.holds d hd hp)
  apart := by
    rw [hsub]
    exact h.apart

/-- One call moves on; the entries of the calls that are pending afterwards are still held. -/
theorem PendingInv.of_set (h : PendingInv s) {k : Nat} {c : SubmitCall N C} {phase : SubmitPhase C}
    (hk : s.submits[k]? = some c) (hp : phase.pending = true → c.phase.pending = true)
    (hsub : s'.submits = s.submits.set k { c with phase := phase })
    (hnode : ∀ (j : Nat) (d : SubmitCall N C), s.submits[j]? = some d → d.phase.pending = true →
      (j = k → phase.pending = true) → (s.node d.self).Holds d.entry →
      (s'.node d.self).Holds d.entry) : PendingInv s' := by
  -- a call that is pending afterwards was pending before, with the same entry on the same node
  have hback : ∀ (j : Nat) (d : SubmitCall N C), s'.submits[j]? = some d → d.phase.pending = true →
      ∃ d₀, s.submits[j]? = some d₀ ∧ d₀.phase.pending = true ∧ d₀.self = d.self ∧
        d₀.entry = d.entry ∧ (j = k → phase.pending = true) := by
    intro j d hj hd
    rw [hsub] at hj
    by_cases hjk : k = j
    · subst hjk
      rw [getElem?_set_self (List.getElem?_eq_some_iff.1 hk).1] at hj
      obtain rfl := some.inj hj
      exact ⟨c, hk, hp hd, rfl, rfl, fun _ => hd⟩
    · rw [getElem?_set_ne hjk] at hj
      exact ⟨d, hj, hd, rfl, rfl, fun he => absurd he.symm hjk⟩
  refine ⟨fun d hd hpd => ?_, fun i j c' d' hi hj hij hc hd hself => ?_⟩
  · obtain ⟨j, hj⟩ := mem_iff_getElem?.1 hd
    obtain ⟨d₀, hj₀, hp₀, hself, hentry, hlive⟩ := hback j d hj hpd
    rw [← hself, ← hentry]
    exact hnode j d₀ hj₀ hp₀ hlive (h.holds d₀ (mem_of_getElem? hj₀) hp₀)
  · obtain ⟨c₀, hi₀, hc₀, hcs, hce, _⟩ := hback i c' hi hc
    obtain ⟨d₀, hj₀, hd₀, hds, hde, _⟩ := hback j d' hj hd
    rw [← hce, ← hde]
    exact h.apart i j c₀ d₀ hi₀ hj₀ hij hc₀ hd₀ (by rw [hcs, hds, hself])

/-- A call moves on without touching a log. -/
theorem PendingInv.of_call (h : PendingInv s) {k : Nat} {c : SubmitCall N C}
    {phase : SubmitPhase C} (hk : s.submits[k]? = some c)
    (hp : phase.pending = true → c.phase.pending = true)
    (hsub : s'.submits = s.submits.set k { c with phase := phase })
    (hnode : ∀ n, (s'.node n).logPart = (s.node n).logPart) : PendingInv s' :=
  h.of_set hk hp hsub fun _ d _ _ _ hheld => hheld.of_logPart (hnode d.self)

theorem PendingInv.forwards (h : PendingInv s) (hf : OnlyForwards s s') : PendingInv s' := by
  obtain ⟨f, rfl⟩ := hf
  exact ⟨h.holds, h.apart⟩

theorem getElem?_concat_cases {α : Type*} {l : List α} {a b : α} {i : Nat}
    (h : (l ++ [a])[i]? = some b) : l[i]? = some b ∨ i = l.length ∧ b = a := by
  rcases Nat.lt_or_ge i l.length with hlt | hge
  · rw [getElem?_append_left hlt] at h
    exact .inl h
  · rw [getElem?_append_right hge, getElem?_singleton] at h
    split_ifs at h
    exact .inr ⟨by omega, (some.inj h).symm⟩

variable [DecidableEq N]

/-- One node changes, and keeps what its pending calls have published. -/
theorem PendingInv.of_node (h : PendingInv s) {n : N} {x : Node N C B}
    (hnode : s'.node = update s.node n x) (hsub : s'.submits = s.submits)
    (hx : ∀ d ∈ s.submits, d.self = n → d.phase.pending = true → (s.node n).Holds d.entry →
      x.Holds d.entry) : PendingInv s' := by
  refine h.of_nodes hsub fun d hd hp hheld => ?_
  rw [hnode]
  by_cases hdn : d.self = n
  · rw [hdn] at hheld ⊢
    rw [update_self]
    exact hx d hd hdn hp hheld
  · rw [update_of_ne hdn]
    exact hheld

theorem PendingInv.submit (h : PendingInv s) (hlay : LayoutInv s) {n : N} {command : C}
    {origin : Option Nat} (hs : s.submit n command origin = some s') : PendingInv s' := by
  obtain ⟨_, rfl⟩ := submit_some hs
  have hheld : ∀ d ∈ s.submits, d.phase.pending = true →
      (update s.node n ((s.node n).pushEntry
        ⟨(s.node n).logLen + 1, (s.node n).currentTerm, command⟩) d.self).Holds d.entry := by
    intro d hd hp
    by_cases hdn : d.self = n
    · rw [hdn, update_self]
      exact (hdn ▸ h.holds d hd hp).imp_left (mem_append_left _)
    · rw [update_of_ne hdn]
      exact h.holds d hd hp
  -- the new index lies past every entry that the node holds
  have hnew : ∀ d ∈ s.submits, d.phase.pending = true → d.self = n →
      d.entry.index ≠ (s.node n).logLen + 1 := by
    intro d hd hp hdn
    have := (hdn ▸ h.holds d hd hp).index_le (hlay.indexed n)
    omega
  refine ⟨?_, fun i j c d hi hj hij hc hd hself => ?_⟩
  · intro d hd hp
    rcases mem_append.1 hd with hd | hd
    · exact hheld d hd hp
    · obtain rfl := mem_singleton.1 hd
      dsimp only
      rw [update_self]
      exact .inl (mem_append_right _ (mem_singleton_self _))
  · rcases getElem?_concat_cases hi with hi | ⟨rfl, rfl⟩ <;>
      rcases getElem?_concat_cases hj with hj | ⟨rfl, rfl⟩
    · exact h.apart i j c d hi hj hij hc hd hself
    · exact hnew c (mem_of_getElem? hi) hc hself
    · exact (hnew d (mem_of_getElem? hj) hd hself.symm).symm
    · exact absurd rfl hij

/-- The rollback itself: the other pending calls of the node have other indices. -/
theorem PendingInv.submitFail (h : PendingInv s) {k : Nat} (hs : s.submitFail k = some s') :
    PendingInv s' := by
  obtain ⟨c, f, hk, hphase, rfl⟩ := submitFail_some hs
  have hpending : c.phase.pending = true := by rw [hphase]; rfl
  refine h.of_set hk (fun _ => hpending) rfl fun j d hj hd hlive hheld => ?_
  by_cases hself : d.self = c.self
  · have hjk : j ≠ k := fun hjk => by cases hlive hjk
    simp only [hself] at hheld ⊢
    rw [update_self]
    exact hheld.rollback (h.apart j k d c hj hk hjk hd hpending hself)
  · simp only [update_of_ne hself]
    exact hheld

/-- **Every allowed step keeps the invariant.** -/
theorem PendingInv.step (h : PendingInv s) (hlay : LayoutInv s) {a : Action N C}
    (hok : SparesPending s a) (hs : Raft.step cfg cb s a = some s') : PendingInv s' := by
  -- a step that touches no log moves at most one call on
  have hquiet : a.writesLog = false → PendingInv s' := by
    intro hw
    have hnode := (logQuiet_step hw hs).node
    rcases submits_step hs with hsame | ⟨hpub, _, _⟩ | ⟨hk, hm, hset⟩
    · exact h.of_nodes hsame fun d _ _ hheld => hheld.of_logPart (hnode d.self)
    · cases a <;> first | (cases hw; done) | cases hpub
    · exact h.of_call hk hm.pending hset hnode
  cases a with
  | appendHandle i io =>
    obtain ⟨sender, peer, nextIdx, req, x, r, hi, hx, rfl⟩ := appendHandle_some hs
    have hnum := hlay.msgs _ (mem_of_getElem? hi)
    have hb := Nat.le_of_eq (hlay.boundary peer)
    have hoff := (handleAppendEntries_indexed cfg peer (s.clock peer) io (s.node peer) req
      (hlay.indexed peer) hb hnum hx).2.1
    refine h.of_node rfl rfl fun d hd hdp hp hheld => ?_
    rcases hheld with he | hle
    · left
      have hkeep := handleAppendEntries_keeps cfg peer (s.clock peer) io (s.node peer) req
        (hlay.indexed peer) hb hnum (fun hterm hprev k entry f => hok sender peer nextIdx req hi
          hterm hprev d hd hdp hp k entry f) he (Nat.le_refl d.entry.index)
      rw [hx] at hkeep
      exact hkeep
    · exact .inr (hoff.symm ▸ hle)
  | sendAppend i =>
    obtain rfl | ⟨_, _, _, _, _, _, rfl⟩ := sendAppend_some hs <;> exact ⟨h.holds, h.apart⟩
  | installEnd n walOk =>
    obtain ⟨i, index, term, data, wal, hj, rfl⟩ := installEnd_some hs
    exact h.of_node rfl rfl fun d _ _ _ hheld => hheld.finishInstall (hlay.indexed n) index term
  | compactEnd n walOk =>
    obtain ⟨idx, term, wal, hj, rfl⟩ := compactEnd_some hs
    exact h.of_node rfl rfl fun d _ _ _ hheld =>
      hheld.compactFinish (hlay.indexed n) (hlay.boundary n) idx term
  | submit n command => exact h.submit hlay hs
  | propose n command =>
    obtain hs | hf := propose_some hs
    · exact h.submit hlay hs
    · exact h.forwards hf
  | forwardHandle i =>
    obtain ⟨t, _, _, _, _, ht, hs⟩ | hf := forwardHandle_some hs
    · exact (h.forwards ht).submit (hlay.forwards ht) hs
    · exact h.forwards hf
  | submitFail k => exact h.submitFail hs
  | _ => exact hquiet rfl

end

/-! ## Runs -/

end MxKeys.Raft
