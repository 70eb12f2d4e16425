/-
# MxKeys.Raft.Word — the log view in 64-bit arithmetic.

`MxKeys.Raft.Node` counts terms and indices without bound.  The source has `uint64`: `logLen`,
`lastKeepIndex + 1` and the counter of the commit loop wrap around.  This module has the same
functions over `UInt64` and compares them with the unbounded ones.

The log view is exact at both ends of the range (`log_view_exact`): the one sum that can wrap,
`lastKeepIndex + 1`, wraps to the index that names no entry.  The commit loop is not
(`commit_rule_iff`): a log that ends at the largest index never lets the loop end, since its counter
passes from the largest index to zero, and a commit index at the largest index starts it at zero.
-/
import MxKeys.Raft.LogView
import Mathlib.Order.Bounds.Basic

namespace MxKeys.Raft.Word

open List Option

variable {N C : Type*}

/-- `math.MaxInt`. -/
def maxInt : UInt64 := 9223372036854775807

/-- `math.MaxUint64`. -/
def maxIndex : UInt64 := 18446744073709551615

/-- An entry of the log. -/
structure LogEntry (C : Type*) where
  index : UInt64
  term : UInt64
  command : C

/-- The fields of a node that the log view and the commit rule read. -/
structure Node (N C : Type*) where
  currentTerm : UInt64
  commitIndex : UInt64
  logOffset : UInt64
  snapshotIndex : UInt64
  snapshotTerm : UInt64
  matchIndex : N → UInt64
  log : List (LogEntry C)
  /-- The length of a slice is an `int`. -/
  addressable : log.length ≤ maxInt.toNat

/-! ## The log view -/

/-- `offsetToSlot`. -/
def offsetToSlot (absoluteIndex logOffset : UInt64) (logLen : Int) : Option Nat :=
  if absoluteIndex = 0 ∨ absoluteIndex ≤ logOffset then none
  else if logLen < 0 then none
  else
    let diff := absoluteIndex - logOffset - 1
    if UInt64.ofNat logLen.toNat ≤ diff then none
    else if maxInt < diff then none
    else some diff.toNat

/-- `logLen`. -/
def Node.logLen (n : Node N C) : UInt64 := n.logOffset + UInt64.ofNat n.log.length

/-- `entryAt`. -/
def Node.entryAt (n : Node N C) (absoluteIndex : UInt64) : Option (LogEntry C) :=
  (offsetToSlot absoluteIndex n.logOffset n.log.length).bind fun slot => n.log[slot]?

/-- `termAt`. -/
def Node.termAt (n : Node N C) (absoluteIndex : UInt64) : Option UInt64 :=
  if absoluteIndex = 0 then some 0
  else if absoluteIndex = n.snapshotIndex then some n.snapshotTerm
  else (n.entryAt absoluteIndex).map LogEntry.term

/-- Keep the first entries of the slice. -/
def Node.keep (n : Node N C) (count : Nat) : Node N C :=
  { n with
    log := n.log.take count
    addressable := Nat.le_trans (List.length_take_le' ..) n.addressable }

/-- `truncateSliceAfter`. -/
def Node.truncateSliceAfter (n : Node N C) (lastKeepIndex : UInt64) : Node N C :=
  if lastKeepIndex ≤ n.logOffset then n.keep 0
  else
    match offsetToSlot (lastKeepIndex + 1) n.logOffset n.log.length with
    | none => n
    | some slot => n.keep slot

/-- The log is numbered from `logOffset + 1` on, and its last index is a `uint64`. -/
structure Node.Represents (n : Node N C) : Prop where
  indexed : ∀ k e, n.log[k]? = some e → e.index.toNat = n.logOffset.toNat + k + 1
  bounded : n.logOffset.toNat + n.log.length ≤ maxIndex.toNat

variable {n : Node N C}

/-- **No wrap-around**: the slot is the one of unbounded arithmetic. -/
theorem offsetToSlot_toNat (a o : UInt64) {len : Nat} (hlen : len ≤ maxInt.toNat) :
    offsetToSlot a o len = Raft.offsetToSlot a.toNat o.toNat len := by
  have hzero : a = 0 ↔ a.toNat = 0 := UInt64.toNat_inj.symm
  have hcast : (UInt64.ofNat (len : Int).toNat).toNat = len := by
    rw [Int.toNat_natCast, UInt64.toNat_ofNat_of_lt' (lt_of_le_of_lt hlen (by decide))]
  unfold offsetToSlot Raft.offsetToSlot
  simp only [hzero, UInt64.le_iff_toNat_le, UInt64.lt_iff_toNat_lt, hcast]
  by_cases hlow : a.toNat = 0 ∨ a.toNat ≤ o.toNat
  · rw [if_pos hlow, if_pos hlow]
  · rw [if_neg hlow, if_neg hlow, if_neg (by omega)]
    rw [not_or, not_le] at hlow
    have hsub : (a - o).toNat = a.toNat - o.toNat :=
      UInt64.toNat_sub_of_le _ _ (UInt64.le_iff_toNat_le.2 hlow.2.le)
    have hdiff : (a - o - 1).toNat = a.toNat - o.toNat - 1 := by
      rw [UInt64.toNat_sub_of_le _ _ (UInt64.le_iff_toNat_le.2 ?_), hsub]
      · rfl
      · show 1 ≤ (a - o).toNat
        omega
    rw [hdiff]
    split_ifs
    · rfl
    · omega
    · rfl

theorem offsetToSlot_eq_some {a o : UInt64} {len slot : Nat} (hlen : len ≤ maxInt.toNat) :
    offsetToSlot a o len = some slot ↔ slot < len ∧ a.toNat = o.toNat + slot + 1 := by
  rw [offsetToSlot_toNat a o hlen, Raft.offsetToSlot]
  split_ifs
  · exact ⟨nofun, fun h => by omega⟩
  · exact ⟨nofun, fun h => by omega⟩
  · rw [some.injEq]
    omega

theorem offsetToSlot_log (hn : n.Represents) (a : UInt64) (slot : Nat) :
    offsetToSlot a n.logOffset n.log.length = some slot ↔
      ∃ e, n.log[slot]? = some e ∧ e.index = a := by
  rw [offsetToSlot_eq_some n.addressable]
  constructor
  · rintro ⟨hlt, ha⟩
    refine ⟨_, getElem?_eq_getElem hlt, UInt64.toNat_inj.1 ?_⟩
    rw [hn.indexed _ _ (getElem?_eq_getElem hlt), ha]
  · rintro ⟨e, he, rfl⟩
    exact ⟨(List.getElem?_eq_some_iff.1 he).1, hn.indexed _ _ he⟩

theorem truncateSliceAfter_log (hn : n.Represents) (k : UInt64) :
    (n.truncateSliceAfter k).log = n.log.filter fun e => decide (e.index ≤ k) := by
  -- in a numbered log the entries up to `k` are the first `k - logOffset`
  have hfilter : n.log.filter (fun e => decide (e.index ≤ k)) =
      n.log.take (k.toNat - n.logOffset.toNat) := by
    refine (filter_eq_take_drop fun j e he => ?_).1
    rw [decide_eq_true_eq, UInt64.le_iff_toNat_le, hn.indexed j e he]
    omega
  have hb : _ ≤ 18446744073709551615 := hn.bounded
  have hk := k.toNat_lt
  rw [hfilter]
  unfold Node.truncateSliceAfter
  simp only [UInt64.le_iff_toNat_le]
  split_ifs with hle
  · rw [Nat.sub_eq_zero_of_le hle]
    rfl
  · cases hslot : offsetToSlot (k + 1) n.logOffset n.log.length with
    | none =>
      -- no entry has the index `k + 1`, be it past the end or wrapped to zero
      refine (take_of_length_le (l := n.log) ?_).symm
      by_contra hlong
      have hnone : offsetToSlot (k + 1) n.logOffset n.log.length =
          some (k.toNat - n.logOffset.toNat) := by
        refine (offsetToSlot_eq_some n.addressable).2 ⟨by omega, ?_⟩
        rw [UInt64.toNat_add, UInt64.toNat_one]
        omega
      rw [hslot] at hnone
      cases hnone
    | some slot =>
      obtain ⟨_, ha⟩ := (offsetToSlot_eq_some n.addressable).1 hslot
      rw [UInt64.toNat_add, UInt64.toNat_one] at ha
      show n.log.take slot = _
      congr 1
      omega

/-- **The log view is exact over all indices.**  Truncation keeps the entries up to an index, and
the slot of an index is the one of the entry that has it, if there is one. -/
theorem log_view_exact (hn : n.Represents) (k : UInt64) :
    (n.truncateSliceAfter k).log = n.log.filter (fun e => decide (e.index ≤ k)) ∧
    ∀ a slot, offsetToSlot a n.logOffset n.log.length = some slot ↔
      ∃ e, n.log[slot]? = some e ∧ e.index = a :=
  ⟨truncateSliceAfter_log hn k, offsetToSlot_log hn⟩

/-- A log of one entry, at the largest index. -/
def lastIndex : Node (Fin 2) Nat where
  currentTerm := 1
  commitIndex := 18446744073709551614
  logOffset := 18446744073709551614
  snapshotIndex := 18446744073709551614
  snapshotTerm := 1
  matchIndex := fun _ => 0
  log := [⟨18446744073709551615, 1, 7⟩]
  addressable := by decide

theorem lastIndex_represents : lastIndex.Represents where
  indexed := by
    rintro (_ | k) e he
    · cases he
      rfl
    · cases he
  bounded := by decide

theorem log_view_lastIndex : (lastIndex.truncateSliceAfter 18446744073709551615).log.length = 1 ∧
    offsetToSlot 18446744073709551615 lastIndex.logOffset lastIndex.log.length = some 0 := by
  obtain ⟨hlog, hslot⟩ := log_view_exact lastIndex_represents 18446744073709551615
  refine ⟨?_, (hslot _ 0).2 ⟨_, rfl, rfl⟩⟩
  rw [hlog]
  decide

/-! ## The commit rule -/

def Node.setCommit (n : Node N C) (c : UInt64) : Node N C := { n with commitIndex := c }

/-- One round of the loop of `updateCommitIndex`. -/
def Node.commitRound (peers : List N) (n : Node N C) (i : UInt64) : Node N C :=
  match n.termAt i with
  | none => n
  | some term =>
    if term ≠ n.currentTerm then n
    else
      let matched := 1 + (peers.filter fun p => i ≤ n.matchIndex p).length
      if (peers.length + 1) / 2 < matched then n.setCommit i else n

/-- The loop from `i` on; nothing if it has not ended after `fuel` rounds. -/
def Node.commitLoop (peers : List N) : (fuel : Nat) → UInt64 → Node N C → Option (Node N C)
  | 0, _, _ => none
  | fuel + 1, i, n =>
    if i ≤ n.logLen then Node.commitLoop peers fuel (i + 1) (n.commitRound peers i) else some n

/-- `updateCommitIndex`; `none` when the fuel runs out. -/
def Node.updateCommitIndex (peers : List N) (fuel : Nat) (n : Node N C) : Option (Node N C) :=
  n.commitLoop peers fuel (n.commitIndex + 1)

/-- A round at `i` moves the commit index. -/
def Node.Passes (peers : List N) (n : Node N C) (i : UInt64) : Prop :=
  n.termAt i = some n.currentTerm ∧
    (peers.length + 1) / 2 < 1 + (peers.filter fun p => i ≤ n.matchIndex p).length

/-- There is an entry of the current term at `i`, and more than half of the cluster has it. -/
def Node.Committable (peers : List N) (n : Node N C) (i : UInt64) : Prop :=
  (∃ e ∈ n.log, e.index = i ∧ e.term = n.currentTerm) ∧
    peers.length + 1 < 2 * ((peers.filter fun p => i ≤ n.matchIndex p).length + 1)

/-- **The commit rule**: only the commit index changes, to the largest committable index above it,
if there is one. -/
def Node.Commits (peers : List N) (n n' : Node N C) : Prop :=
  ∃ c, n' = n.setCommit c ∧
    (IsGreatest {i | n.commitIndex < i ∧ n.Committable peers i} c ∨
      (∀ i, n.commitIndex < i → ¬n.Committable peers i) ∧ c = n.commitIndex)

variable {peers : List N} {i : UInt64}

theorem commitRound_eq (peers : List N) (n : Node N C) (i : UInt64) :
    ∃ c, n.commitRound peers i = n.setCommit c ∧
      (n.Passes peers i ∧ c = i ∨ ¬n.Passes peers i ∧ c = n.commitIndex) := by
  unfold Node.commitRound Node.Passes
  cases n.termAt i with
  | none => exact ⟨_, rfl, .inr ⟨nofun, rfl⟩⟩
  | some term =>
    dsimp only
    split_ifs with hterm hcount
    · exact ⟨_, rfl, .inr ⟨fun h => hterm (some.inj h.1), rfl⟩⟩
    · exact ⟨i, rfl, .inl ⟨⟨by rw [not_not.1 hterm], hcount⟩, rfl⟩⟩
    · exact ⟨_, rfl, .inr ⟨fun h => hcount h.2, rfl⟩⟩

/-- **The loop takes the last round that passes**, where its counter does not wrap. -/
theorem commitLoop_spec (peers : List N) {k : Nat} (hmax : n.logLen ≠ maxIndex)
    (hk : n.logLen.toNat + 1 - i.toNat = k) :
    ∃ c, n.commitLoop peers (k + 1) i = some (n.setCommit c) ∧
      (IsGreatest {j | i ≤ j ∧ j ≤ n.logLen ∧ n.Passes peers j} c ∨
        (∀ j, i ≤ j → j ≤ n.logLen → ¬n.Passes peers j) ∧ c = n.commitIndex) := by
  have hlt : n.logLen.toNat < 2 ^ 64 - 1 := by
    have := n.logLen.toNat_lt
    have : n.logLen.toNat ≠ 2 ^ 64 - 1 := fun h => hmax (UInt64.toNat_inj.1 h)
    omega
  induction k generalizing i n with
  | zero =>
    have hend : ¬i ≤ n.logLen := by
      rw [UInt64.le_iff_toNat_le]
      omega
    refine ⟨n.commitIndex, if_neg hend, .inr ⟨fun j hij hj => ?_, rfl⟩⟩
    exact absurd (UInt64.le_trans hij hj) hend
  | succ k ih =>
    have hin : i ≤ n.logLen := by
      rw [UInt64.le_iff_toNat_le]
      omega
    have hnext : (i + 1).toNat = i.toNat + 1 := by
      rw [UInt64.toNat_add, UInt64.toNat_one]
      omega
    have habove : ∀ j, i ≤ j → j = i ∨ i + 1 ≤ j := by
      intro j hij
      rw [UInt64.le_iff_toNat_le] at hij ⊢
      rw [← UInt64.toNat_inj]
      omega
    have hstep : n.commitLoop peers (k + 1 + 1) i =
        (n.commitRound peers i).commitLoop peers (k + 1) (i + 1) := if_pos hin
    rw [hstep]
    obtain ⟨c₀, hround, hc₀⟩ := commitRound_eq peers n i
    rw [hround]
    -- a round reads nothing that an earlier one has written
    obtain ⟨c, hc, hlast⟩ := ih (n := n.setCommit c₀) (i := i + 1) hmax
      (by show n.logLen.toNat + 1 - _ = k; omega) hlt
    refine ⟨c, hc, ?_⟩
    rcases hlast with ⟨⟨hle, hj, hpass⟩, hupper⟩ | ⟨hnone, rfl⟩
    · refine .inl ⟨⟨?_, hj, hpass⟩, fun j ⟨hij, hjl, hjp⟩ => ?_⟩
      · rw [UInt64.le_iff_toNat_le] at hle ⊢
        omega
      · rcases habove j hij with rfl | hj'
        · rw [UInt64.le_iff_toNat_le] at hle ⊢
          omega
        · exact hupper ⟨hj', hjl, hjp⟩
    · rcases hc₀ with ⟨hp, rfl⟩ | ⟨hp, rfl⟩
      · refine .inl ⟨⟨UInt64.le_refl _, hin, hp⟩, fun j ⟨hij, hjl, hjp⟩ => ?_⟩
        rcases habove j hij with rfl | hj'
        · exact UInt64.le_refl _
        · exact absurd hjp (hnone j hj' hjl)
      · refine .inr ⟨fun j hij hjl hjp => ?_, rfl⟩
        rcases habove j hij with rfl | hj'
        · exact hp hjp
        · exact hnone j hj' hjl hjp

/-- A log that ends at the largest index: the counter never passes it. -/
theorem commitLoop_none (hmax : n.logLen = maxIndex) (fuel : Nat) (i : UInt64) :
    n.commitLoop peers fuel i = none := by
  induction fuel generalizing n i with
  | zero => rfl
  | succ fuel ih =>
    obtain ⟨c, hround, -⟩ := commitRound_eq peers n i
    have hle : i ≤ n.logLen := by
      rw [hmax, UInt64.le_iff_toNat_le]
      exact Nat.le_of_lt_succ i.toNat_lt
    rw [Node.commitLoop, if_pos hle, hround]
    exact ih (n := n.setCommit c) hmax _

/-- More rounds change nothing once the loop has ended. -/
theorem commitLoop_unique {fuel fuel' : Nat} {a b : Node N C}
    (ha : n.commitLoop peers fuel i = some a) (hb : n.commitLoop peers fuel' i = some b) :
    a = b := by
  induction fuel generalizing fuel' n i with
  | zero => cases ha
  | succ fuel ih =>
    cases fuel' with
    | zero => cases hb
    | succ fuel' =>
      rw [Node.commitLoop] at ha hb
      split_ifs at ha hb with hle
      · exact ih ha hb
      · exact some.inj (ha.symm.trans hb)

theorem logLen_toNat (hn : n.Represents) :
    n.logLen.toNat = n.logOffset.toNat + n.log.length := by
  have hb : _ ≤ 18446744073709551615 := hn.bounded
  unfold Node.logLen
  rw [UInt64.toNat_add, UInt64.toNat_ofNat_of_lt' (lt_of_le_of_lt n.addressable (by decide))]
  omega

theorem entryAt_eq_some (hn : n.Represents) {e : LogEntry C} :
    n.entryAt i = some e ↔ e ∈ n.log ∧ e.index = i := by
  unfold Node.entryAt
  rw [bind_eq_some_iff]
  constructor
  · rintro ⟨slot, hslot, he⟩
    obtain ⟨e', he', rfl⟩ := (offsetToSlot_log hn i slot).1 hslot
    cases he'.symm.trans he
    exact ⟨mem_of_getElem? he, rfl⟩
  · rintro ⟨he, hi⟩
    obtain ⟨slot, hslot⟩ := mem_iff_getElem?.1 he
    exact ⟨slot, (offsetToSlot_log hn i slot).2 ⟨e, hslot, hi⟩, hslot⟩

/-- Above the snapshot the rounds that pass are the committable indices. -/
theorem passes_iff_committable (hn : n.Represents) (hi : n.snapshotIndex < i) :
    i ≤ n.logLen ∧ n.Passes peers i ↔ n.Committable peers i := by
  have hzero : i ≠ 0 := fun h => by
    rw [h, UInt64.lt_iff_toNat_lt] at hi
    exact absurd hi (Nat.not_lt_zero _)
  have hterm : n.termAt i = some n.currentTerm ↔
      ∃ e ∈ n.log, e.index = i ∧ e.term = n.currentTerm := by
    unfold Node.termAt
    rw [if_neg hzero, if_neg fun h => UInt64.lt_irrefl _ (h ▸ hi), map_eq_some_iff]
    simp only [entryAt_eq_some hn, and_assoc]
  unfold Node.Passes Node.Committable
  rw [hterm]
  constructor
  · rintro ⟨-, he, hcount⟩
    exact ⟨he, by omega⟩
  · rintro ⟨⟨e, he, hidx, het⟩, hcount⟩
    refine ⟨?_, ⟨e, he, hidx, het⟩, by omega⟩
    obtain ⟨k, hk⟩ := mem_iff_getElem?.1 he
    have := (List.getElem?_eq_some_iff.1 hk).1
    have := hn.indexed k e hk
    rw [← hidx, UInt64.le_iff_toNat_le, logLen_toNat hn]
    omega

/-- **When `updateCommitIndex` follows the commit rule**, for every node whose log is numbered and
whose commit index is not below its snapshot: exactly if the log does not end at the largest index,
and, should the commit index be the largest one, no round from zero on passes. -/
theorem commit_rule_iff (hn : n.Represents) (hsnap : n.snapshotIndex ≤ n.commitIndex) :
    (∃ fuel n', n.updateCommitIndex peers fuel = some n' ∧ n.Commits peers n') ↔
      n.logLen ≠ maxIndex ∧
        (n.commitIndex = maxIndex → ∀ i, i ≤ n.logLen → ¬n.Passes peers i) := by
  by_cases hmax : n.logLen = maxIndex
  · refine iff_of_false ?_ fun h => h.1 hmax
    rintro ⟨fuel, n', hrun, -⟩
    rw [Node.updateCommitIndex, commitLoop_none hmax] at hrun
    cases hrun
  obtain ⟨c, hrun, hlast⟩ := commitLoop_spec peers (i := n.commitIndex + 1) hmax rfl
  rw [and_iff_right hmax]
  by_cases hwrap : n.commitIndex = maxIndex
  · -- the loop starts at zero, and no index lies above the commit index
    have hstart : n.commitIndex + 1 = 0 := by rw [hwrap]; rfl
    have hzero : ∀ j : UInt64, 0 ≤ j := fun j => UInt64.le_iff_toNat_le.2 (Nat.zero_le _)
    have htop : ∀ j, ¬n.commitIndex < j := fun j hj => by
      rw [hwrap, UInt64.lt_iff_toNat_lt] at hj
      exact absurd (Nat.le_of_lt_succ j.toNat_lt) (Nat.not_le.2 hj)
    rw [hstart] at hlast
    constructor
    · rintro ⟨fuel, n', hrun', c', rfl, hc'⟩ -
      obtain rfl : c = c' := congrArg Node.commitIndex (commitLoop_unique hrun hrun')
      rcases hc' with ⟨⟨hlt, -⟩, -⟩ | ⟨-, rfl⟩
      · exact absurd hlt (htop _)
      · rcases hlast with ⟨⟨-, hle, -⟩, -⟩ | ⟨hnone, -⟩
        · exact absurd (UInt64.lt_of_le_of_ne hle fun h => hmax (h ▸ hwrap)) (htop _)
        · exact fun j => hnone j (hzero j)
    · intro hnone
      rcases hlast with ⟨⟨-, hle, hpass⟩, -⟩ | ⟨-, rfl⟩
      · exact absurd hpass (hnone hwrap _ hle)
      · exact ⟨_, _, hrun, _, rfl, .inr ⟨fun j hj => absurd hj (htop j), rfl⟩⟩
  · refine iff_of_true ⟨_, _, hrun, c, rfl, ?_⟩ fun h => absurd h hwrap
    have hlt : n.commitIndex.toNat < 2 ^ 64 - 1 := by
      have := n.commitIndex.toNat_lt
      have : n.commitIndex.toNat ≠ 2 ^ 64 - 1 := fun h => hwrap (UInt64.toNat_inj.1 h)
      omega
    have hnext : ∀ j, n.commitIndex + 1 ≤ j ↔ n.commitIndex < j := fun j => by
      rw [UInt64.le_iff_toNat_le, UInt64.lt_iff_toNat_lt, UInt64.toNat_add, UInt64.toNat_one]
      omega
    have hpass : ∀ j, n.commitIndex < j →
        (j ≤ n.logLen ∧ n.Passes peers j ↔ n.Committable peers j) := fun j hj =>
      passes_iff_committable hn (UInt64.lt_of_le_of_lt hsnap hj)
    have hset : {j | n.commitIndex + 1 ≤ j ∧ j ≤ n.logLen ∧ n.Passes peers j} =
        {j | n.commitIndex < j ∧ n.Committable peers j} := by
      ext j
      exact (and_congr_left' (hnext j)).trans (and_congr_right (hpass j))
    rw [hset] at hlast
    refine hlast.imp_right fun h => ⟨fun j hj hcom => ?_, h.2⟩
    obtain ⟨hle, hp⟩ := (hpass j hj).2 hcom
    exact h.1 j ((hnext j).2 hj) hle hp

/-- A leader of two nodes with one entry that the other node has. -/
def shared : Node (Fin 2) Nat where
  currentTerm := 1
  commitIndex := 0
  logOffset := 0
  snapshotIndex := 0
  snapshotTerm := 0
  matchIndex := fun _ => 1
  log := [⟨1, 1, 7⟩]
  addressable := by decide

theorem commit_rule_shared :
    ∃ fuel n', shared.updateCommitIndex [1] fuel = some n' ∧ shared.Commits [1] n' := by
  refine (commit_rule_iff ⟨?_, by decide⟩ (by decide)).2 ⟨by decide, nofun⟩
  rintro (_ | k) e he
  · cases he
    rfl
  · cases he

/-- **The loop that does not end.**  The log ends at the largest index, and every number of rounds
is too few. -/
theorem commit_loop_endless : lastIndex.Represents ∧
    lastIndex.snapshotIndex ≤ lastIndex.commitIndex ∧
    ∀ fuel, lastIndex.updateCommitIndex [1] fuel = none :=
  ⟨lastIndex_represents, by decide, fun _ => commitLoop_none rfl _ _⟩

end MxKeys.Raft.Word
