/-
# MxKeys.Raft.LogView — what the log accessors and the append loop compute.

The accessors in terms of plain list indexing, and one lemma for what a single entry of an
`AppendEntries` request can do to the log.  `Indexed` is the source's invariant
`n.log[i].Index == n.logOffset + i + 1`; the append loop keeps it as long as the entries of the
request are numbered from `PrevLogIndex + 1` on.
-/
import MxKeys.Raft.Handlers

namespace MxKeys.Raft

open List Option

variable {N C B : Type*} {x : Node N C B} {i idx : Nat} {entry : LogEntry C}

/-! ## Accessors -/

variable {logOffset logLen prev term : Nat} {go : Bool}

theorem offsetToSlot_of_lt (h : logOffset < i) (hi : i ≤ logOffset + logLen) :
    offsetToSlot i logOffset logLen = some (i - logOffset - 1) := by
  unfold offsetToSlot
  rw [if_neg (by omega), if_neg (by omega)]

theorem offsetToSlot_of_le (h : i ≤ logOffset) :
    offsetToSlot i logOffset logLen = none := by
  unfold offsetToSlot
  rw [if_pos (.inr h)]

theorem offsetToSlot_of_gt (h : logOffset + logLen < i) :
    offsetToSlot i logOffset logLen = none := by
  unfold offsetToSlot
  rw [if_neg (by omega), if_pos (by omega)]

theorem entryAt_of_lt (h : x.logOffset < i) : x.entryAt i = x.log[i - x.logOffset - 1]? := by
  unfold Node.entryAt Node.sliceIndex
  rcases Nat.lt_or_ge (x.logOffset + x.log.length) i with hgt | hle
  · rw [offsetToSlot_of_gt hgt, getElem?_eq_none (by omega)]
    rfl
  · rw [offsetToSlot_of_lt h hle]
    rfl

theorem entryAt_of_le (h : i ≤ x.logOffset) : x.entryAt i = none := by
  unfold Node.entryAt Node.sliceIndex
  rw [offsetToSlot_of_le h]
  rfl

/-- An entry found lies in the window. -/
theorem entryAt_some (h : x.entryAt i = some entry) :
    x.logOffset < i ∧ i ≤ x.logLen ∧ x.log[i - x.logOffset - 1]? = some entry := by
  rcases Nat.lt_or_ge x.logOffset i with hlt | hge
  · rw [entryAt_of_lt hlt] at h
    have := (List.getElem?_eq_some_iff.1 h).1
    refine ⟨hlt, ?_, h⟩
    unfold Node.logLen
    omega
  · rw [entryAt_of_le hge] at h
    cases h

/-- A term found is that of the snapshot boundary or of an entry in the window. -/
theorem termAt_some {t : Nat} (hi : 0 < i) (h : x.termAt i = some t) :
    (i = x.snapshotIndex ∧ t = x.snapshotTerm) ∨
      ∃ e, x.entryAt i = some e ∧ e.term = t := by
  unfold Node.termAt at h
  rw [if_neg (by omega)] at h
  split_ifs at h with hs
  · exact .inl ⟨hs, (some.inj h).symm⟩
  · exact .inr (map_eq_some_iff.1 h)

theorem prevMatches_iff :
    x.prevMatches prev term = true ↔ prev = 0 ∨ x.termAt prev = some term := by
  simp [Node.prevMatches]

/-! ## Truncation -/

/-- Replace the in-memory log. -/
def Node.setLog (x : Node N C B) (log : List (LogEntry C)) : Node N C B := { x with log := log }

theorem truncateSliceAfter_eq (h : x.logOffset < idx) (hi : idx ≤ x.logLen) :
    x.truncateSliceAfter (idx - 1) = x.setLog (x.log.take (idx - x.logOffset - 1)) := by
  unfold Node.logLen at hi
  unfold Node.truncateSliceAfter
  split_ifs with hle
  · have : idx - x.logOffset - 1 = 0 := by omega
    rw [this, take_zero]
    rfl
  · rw [Nat.sub_add_cancel (by omega), offsetToSlot_of_lt h hi]
    rfl

/-! ## One entry of a request -/

/-- What one entry of a request does to the log, and whether the loop goes on. -/
inductive Taken (x : Node N C B) (idx : Nat) (entry : LogEntry C) :
    List (LogEntry C) → Bool → Prop
  /-- Below the window, or in it with the same term. -/
  | keep (h : idx ≤ x.logOffset ∨ ∃ e, x.entryAt idx = some e ∧ e.term = entry.term) :
      Taken x idx entry x.log true
  /-- Conflict: the tail is replaced. -/
  | replace (e : LogEntry C) (he : x.entryAt idx = some e) (hne : e.term ≠ entry.term) :
      Taken x idx entry (x.log.take (idx - x.logOffset - 1) ++ [entry]) true
  /-- Conflict, and a write failed: the tail is gone. -/
  | cut (e : LogEntry C) (he : x.entryAt idx = some e) (hne : e.term ≠ entry.term) :
      Taken x idx entry (x.log.take (idx - x.logOffset - 1)) false
  /-- Past the end. -/
  | extend (h : x.logLen < idx) : Taken x idx entry (x.log ++ [entry]) true
  /-- Past the end, and the write failed. -/
  | refuse (h : x.logLen < idx) : Taken x idx entry x.log false

/-- Everything but the in-memory log and the write-ahead log is as before. -/
def Node.OnlyLog (x x' : Node N C B) : Prop := ∃ log wal, x' = (x.setLog log).setWal wal

theorem appendEntry_eq (x : Node N C B) (entry : LogEntry C) (ok : Bool) :
    x.OnlyLog (x.appendEntry entry ok).1 ∧
      (x.appendEntry entry ok).1.log = (if ok then x.log ++ [entry] else x.log) ∧
      (x.appendEntry entry ok).2 = ok := by
  cases ok
  · exact ⟨⟨x.log, x.wal, rfl⟩, rfl, rfl⟩
  · exact ⟨⟨_, _, rfl⟩, rfl, rfl⟩

/-- **One entry of a request**: what it can do, and that it goes on when the writes succeed. -/
theorem takeEntry_spec (x : Node N C B) (idx : Nat) (entry : LogEntry C) (t p : Bool) :
    x.OnlyLog (x.takeEntry idx entry t p).1 ∧
      Taken x idx entry (x.takeEntry idx entry t p).1.log (x.takeEntry idx entry t p).2 ∧
      (t = true → p = true → (x.takeEntry idx entry t p).2 = true) := by
  unfold Node.takeEntry
  cases he : x.entryAt idx with
  | some e =>
    obtain ⟨hlt, hle, _⟩ := entryAt_some he
    dsimp only
    split_ifs with hne ht
    · rw [truncateSliceAfter_eq hlt hle]
      obtain ⟨⟨log, wal, honly⟩, hlog, hgo⟩ := appendEntry_eq
        ((x.setLog (x.log.take (idx - x.logOffset - 1))).walTruncateAfter (idx - 1)) entry p
      refine ⟨⟨log, wal, honly⟩, ?_, fun _ hp => by rw [hgo, hp]⟩
      rw [hlog, hgo]
      cases p
      · exact .cut e he hne
      · exact .replace e he hne
    · rw [truncateSliceAfter_eq hlt hle]
      exact ⟨⟨x.log.take (idx - x.logOffset - 1), x.wal, rfl⟩, .cut e he hne,
        fun h => absurd h ht⟩
    · exact ⟨⟨x.log, x.wal, rfl⟩, .keep (.inr ⟨e, he, not_not.1 hne⟩), fun _ _ => rfl⟩
  | none =>
    dsimp only
    split_ifs with hlen
    · obtain ⟨honly, hlog, hgo⟩ := appendEntry_eq x entry p
      refine ⟨honly, ?_, fun _ hp => by rw [hgo, hp]⟩
      rw [hlog, hgo]
      cases p
      · exact .refuse hlen
      · exact .extend hlen
    · refine ⟨⟨x.log, x.wal, rfl⟩, .keep (.inl ?_), fun _ _ => rfl⟩
      by_contra hwin
      unfold Node.logLen at hlen
      rw [entryAt_of_lt (by omega), List.getElem?_eq_none_iff] at he
      omega

/-! ## The index invariant -/

/-- The entries in memory are numbered from `logOffset + 1` on. -/
def Node.Indexed (x : Node N C B) : Prop :=
  ∀ k e, x.log[k]? = some e → e.index = x.logOffset + k + 1

variable {log : List (LogEntry C)}

/-- One entry with the right number keeps the numbering, and the next one will fit. -/
theorem Taken.indexed (h : Taken x idx entry log go) (hx : x.Indexed) (hidx : idx ≤ x.logLen + 1)
    (hentry : entry.index = idx) :
    (x.setLog log).Indexed ∧ (go = true → idx ≤ (x.setLog log).logLen) := by
  have happ : ∀ l : List (LogEntry C), (∀ k e, l[k]? = some e → e.index = x.logOffset + k + 1) →
      idx = x.logOffset + l.length + 1 →
      (x.setLog (l ++ [entry])).Indexed ∧ idx ≤ (x.setLog (l ++ [entry])).logLen := by
    intro l hl hlen
    refine ⟨?_, ?_⟩
    · intro k e he
      rcases Nat.lt_or_ge k l.length with hlt | hge
      · exact hl k e ((getElem?_append_left hlt).symm.trans he)
      · have hk := (List.getElem?_eq_some_iff.1 he).1
        have hkl : k = l.length := by
          simp only [Node.setLog, length_append, length_singleton] at hk
          omega
        subst hkl
        have he' : (l ++ [entry])[l.length]? = some e := he
        rw [getElem?_concat_length] at he'
        rw [← some.inj he', hentry]
        exact hlen
    · simp only [Node.logLen, Node.setLog, length_append, length_singleton]
      omega
  have htake : ∀ k e, (x.log.take (idx - x.logOffset - 1))[k]? = some e →
      e.index = x.logOffset + k + 1 := by
    intro k e he
    rw [getElem?_take] at he
    split_ifs at he
    exact hx k e he
  cases h with
  | keep hk =>
    refine ⟨hx, fun _ => ?_⟩
    show idx ≤ x.logLen
    rcases hk with hle | ⟨e, he, _⟩
    · unfold Node.logLen
      omega
    · exact (entryAt_some he).2.1
  | replace e he hne =>
    obtain ⟨hlt, hle, _⟩ := entryAt_some he
    unfold Node.logLen at hle
    obtain ⟨h1, h2⟩ := happ _ htake (by rw [length_take]; omega)
    exact ⟨h1, fun _ => h2⟩
  | cut e he hne => exact ⟨htake, nofun⟩
  | extend hlt =>
    unfold Node.logLen at hlt hidx
    obtain ⟨h1, h2⟩ := happ _ hx (by omega)
    exact ⟨h1, fun _ => h2⟩
  | refuse hlt => exact ⟨hx, nofun⟩

/-- The log gains at most the entry. -/
theorem Taken.mem (h : Taken x idx entry log go) {e : LogEntry C} (he : e ∈ log) :
    e ∈ x.log ∨ e = entry := by
  cases h with
  | keep _ | refuse _ => exact .inl he
  | replace _ _ _ =>
    rcases mem_append.1 he with he | he
    · exact .inl (mem_of_mem_take he)
    · exact .inr (mem_singleton.1 he)
  | cut _ _ _ => exact .inl (mem_of_mem_take he)
  | extend _ =>
    rcases mem_append.1 he with he | he
    · exact .inl he
    · exact .inr (mem_singleton.1 he)

/-! ## A whole request -/

theorem Node.OnlyLog.trans {y z : Node N C B} (h : x.OnlyLog y) (h' : y.OnlyLog z) :
    x.OnlyLog z := by
  obtain ⟨l, w, rfl⟩ := h
  obtain ⟨l', w', rfl⟩ := h'
  exact ⟨l', w', rfl⟩

/-- The loop over the entries of a request: only the log changes, it stays numbered, and what it
gains comes from the request. -/
theorem takeEntries_indexed (entries : List (LogEntry C)) (x : Node N C B) (prev i : Nat)
    (t p : Nat → Bool) (hx : x.Indexed) (hfit : prev + i ≤ x.logLen)
    (hnum : ∀ k e, entries[k]? = some e → e.index = prev + i + k + 1) :
    x.OnlyLog (x.takeEntries prev i t p entries).1 ∧
      (x.takeEntries prev i t p entries).1.Indexed ∧
      ∀ e ∈ (x.takeEntries prev i t p entries).1.log, e ∈ x.log ∨ e ∈ entries := by
  induction entries generalizing x i with
  | nil => exact ⟨⟨x.log, x.wal, rfl⟩, hx, fun e he => .inl he⟩
  | cons entry rest ih =>
    obtain ⟨⟨l, w, honly⟩, htaken, _⟩ := takeEntry_spec x (prev + i + 1) entry (t i) (p i)
    have hentry : entry.index = prev + i + 1 := by
      simpa using hnum 0 entry rfl
    obtain ⟨hidx, hnext⟩ := htaken.indexed hx (by omega) hentry
    have hmem := fun e he => htaken.mem (e := e) he
    unfold Node.takeEntries
    generalize hres : x.takeEntry (prev + i + 1) entry (t i) (p i) = res at *
    obtain ⟨y, go⟩ := res
    have hy : y.Indexed ∧ (go = true → prev + i + 1 ≤ y.logLen) := by
      subst honly
      exact ⟨hidx, hnext⟩
    cases go with
    | false =>
      refine ⟨⟨l, w, honly⟩, hy.1, fun e he => ?_⟩
      exact (hmem e he).imp_right fun h => by rw [h]; exact mem_cons_self
    | true =>
      obtain ⟨h1, h2, h3⟩ := ih y (i + 1) hy.1 (by have := hy.2 rfl; omega) (by
        intro k e he
        have := hnum (k + 1) e he
        omega)
      refine ⟨Node.OnlyLog.trans ⟨l, w, honly⟩ h1, h2, fun e he => ?_⟩
      rcases h3 e he with hy' | hr
      · exact (hmem e hy').imp_right fun h => by rw [h]; exact mem_cons_self
      · exact .inr (mem_cons_of_mem _ hr)

/-- A request whose previous entry matches starts inside the log. -/
theorem prevMatches_le (hs : x.snapshotIndex ≤ x.logOffset) (h : x.prevMatches prev term = true) :
    prev ≤ x.logLen := by
  rcases prevMatches_iff.1 h with rfl | h
  · exact Nat.zero_le _
  · rcases Nat.eq_zero_or_pos prev with rfl | hpos
    · exact Nat.zero_le _
    · rcases termAt_some hpos h with ⟨rfl, _⟩ | ⟨e, he, _⟩
      · unfold Node.logLen
        omega
      · exact (entryAt_some he).2.1

/-- Replace the commit index. -/
def Node.setCommit (x : Node N C B) (c : Nat) : Node N C B := { x with commitIndex := c }

/-- The commit index follows the leader's, but not past the last new entry. -/
theorem followCommit_eq (x : Node N C B) (leaderCommit lastNew : Nat) :
    ∃ c, x.followCommit leaderCommit lastNew = x.setCommit c ∧
      (c = x.commitIndex ∨ (c ≤ leaderCommit ∧ c ≤ lastNew)) := by
  unfold Node.followCommit
  split_ifs with h h'
  · exact ⟨leaderCommit, rfl, .inr ⟨Nat.le_refl _, by omega⟩⟩
  · exact ⟨lastNew, rfl, .inr ⟨by omega, Nat.le_refl _⟩⟩
  · exact ⟨x.commitIndex, rfl, .inl rfl⟩

/-- The loop over the entries of a request writes to the two logs only. -/
theorem takeEntries_onlyLog (entries : List (LogEntry C)) (x : Node N C B) (prev i : Nat)
    (t p : Nat → Bool) : x.OnlyLog (x.takeEntries prev i t p entries).1 := by
  induction entries generalizing x i with
  | nil => exact ⟨x.log, x.wal, rfl⟩
  | cons entry rest ih =>
    have hone := (takeEntry_spec x (prev + i + 1) entry (t i) (p i)).1
    unfold Node.takeEntries
    split
    · rename_i y hy
      rw [hy] at hone
      exact hone.trans (ih y (i + 1))
    · rename_i y hy
      rw [hy] at hone
      exact hone

section Handle

variable (cfg : Config N) (self : N) (now : Nat) (io : AppendIo) (x : Node N C B)
  (req : AppendEntriesRequest N C)

/-- What a request that is not stale can touch: who leads, the two logs and the commit index. -/
theorem handleAppendEntries_heard (h : x.currentTerm ≤ req.term) :
    ∃ log wal c, (handleAppendEntries cfg self now io x req).1 =
      (((x.hearLeader now req.term req.leaderId req.leaderAddress).setLog log).setWal wal).setCommit
        c := by
  unfold handleAppendEntries
  rw [if_neg (Nat.not_lt.2 h)]
  dsimp only
  split_ifs
  · exact ⟨x.log, x.wal, x.commitIndex, rfl⟩
  · obtain ⟨log, wal, honly⟩ := takeEntries_onlyLog req.entries
      (x.hearLeader now req.term req.leaderId req.leaderAddress) req.prevLogIndex 0
      (fun i => cfg.diskOk self (io.truncate i)) (fun i => cfg.diskOk self (io.persist i))
    split
    · rename_i y hy
      rw [hy] at honly
      exact ⟨log, wal, x.commitIndex, honly⟩
    · rename_i y hy
      rw [hy] at honly
      obtain ⟨c, hc, _⟩ := followCommit_eq y req.leaderCommit
        (req.prevLogIndex + req.entries.length)
      exact ⟨log, wal, c, by rw [hc, show y = _ from honly]⟩

/-- **What a request can touch**: nothing, or who leads, the two logs and the commit index. -/
theorem handleAppendEntries_eq : (handleAppendEntries cfg self now io x req).1 = x ∨
      ∃ log wal c, (handleAppendEntries cfg self now io x req).1 =
        (((x.hearLeader now req.term req.leaderId req.leaderAddress).setLog log).setWal
          wal).setCommit c := by
  rcases Nat.lt_or_ge req.term x.currentTerm with hstale | hfresh
  · left
    rw [handleAppendEntries, if_pos hstale]
  · exact .inr (handleAppendEntries_heard cfg self now io x req hfresh)

/-- What `handleAppendEntries` does to the log. -/
theorem handleAppendEntries_indexed (hx : x.Indexed) (hs : x.snapshotIndex ≤ x.logOffset)
    (hnum : ∀ k e, req.entries[k]? = some e → e.index = req.prevLogIndex + k + 1)
    {x' : Node N C B} {r : AppendEntriesResponse}
    (h : handleAppendEntries cfg self now io x req = (x', r)) :
    x'.Indexed ∧ x'.logOffset = x.logOffset ∧ x'.snapshotIndex = x.snapshotIndex ∧
      (∀ e ∈ x'.log, e ∈ x.log ∨ e ∈ req.entries) ∧ (x' = x ∨ x'.state = .follower) := by
  unfold handleAppendEntries at h
  dsimp only at h
  split_ifs at h with hstale hprev
  · cases h
    exact ⟨hx, rfl, rfl, fun e he => .inl he, .inl rfl⟩
  · cases h
    exact ⟨hx, rfl, rfl, fun e he => .inl he, .inr rfl⟩
  · have hle := prevMatches_le (x := x.hearLeader now req.term req.leaderId req.leaderAddress) hs
      (by simpa using hprev)
    obtain ⟨⟨l, w, honly⟩, hidx, hmem⟩ := takeEntries_indexed req.entries
      (x.hearLeader now req.term req.leaderId req.leaderAddress) req.prevLogIndex 0
      (fun i => cfg.diskOk self (io.truncate i)) (fun i => cfg.diskOk self (io.persist i))
      hx hle (by simpa using hnum)
    split at h
    · rename_i y hy
      rw [hy] at honly hidx hmem
      cases h
      subst honly
      exact ⟨hidx, rfl, rfl, hmem, .inr rfl⟩
    · rename_i y hy
      rw [hy] at honly hidx hmem
      cases h
      subst honly
      obtain ⟨c, hc, _⟩ := followCommit_eq (((x.hearLeader now req.term req.leaderId
        req.leaderAddress).setLog l).setWal w) req.leaderCommit
        (req.prevLogIndex + req.entries.length)
      rw [hc]
      exact ⟨hidx, rfl, rfl, hmem, .inr rfl⟩

end Handle

/-! ## The commit index of a leader -/

/-- An index that `updateCommitIndex` may move the commit index to. -/
def Committable (cfg : Config N) (n : N) (x : Node N C B) (c : Nat) : Prop :=
  1 ≤ c ∧ x.termAt c = some x.currentTerm ∧
    ((cfg.peers n).length + 1) / 2 <
      1 + ((cfg.peers n).filter fun p => decide (c ≤ x.matchIndex p)).length

/-- A round moves the commit index to its own index, if it moves it. -/
theorem commitRound_eq (cfg : Config N) (n : N) (x : Node N C B) (i : Nat) :
    (x.commitRound cfg n i = x ∧ ¬(x.termAt i = some x.currentTerm ∧
      ((cfg.peers n).length + 1) / 2 <
        1 + ((cfg.peers n).filter fun p => decide (i ≤ x.matchIndex p)).length)) ∨
      (x.commitRound cfg n i = x.setCommit i ∧ x.termAt i = some x.currentTerm ∧
        ((cfg.peers n).length + 1) / 2 <
          1 + ((cfg.peers n).filter fun p => decide (i ≤ x.matchIndex p)).length) := by
  unfold Node.commitRound
  cases ht : x.termAt i with
  | none => exact .inl ⟨rfl, fun h => by cases h.1⟩
  | some t =>
    dsimp only
    split_ifs with hne hcount
    · exact .inl ⟨rfl, fun h => hne (some.inj h.1)⟩
    · exact .inr ⟨rfl, congrArg some (not_not.1 hne), hcount⟩
    · exact .inl ⟨rfl, fun h => hcount h.2⟩

/-- **What `updateCommitIndex` does**: the commit index stays, or moves up, inside the log, to an
index where the conditions of its round hold. -/
theorem updateCommitIndex_spec (cfg : Config N) (n : N) (x : Node N C B) :
    ∃ c, x.updateCommitIndex cfg n = x.setCommit c ∧
      (c = x.commitIndex ∨ (x.commitIndex < c ∧ c ≤ x.logLen ∧ Committable cfg n x c)) := by
  have hloop : ∀ (l : List Nat), (∀ i ∈ l, x.commitIndex < i ∧ i ≤ x.logLen) → ∀ c,
      (c = x.commitIndex ∨ (x.commitIndex < c ∧ c ≤ x.logLen ∧ Committable cfg n x c)) →
      ∃ c', l.foldl (Node.commitRound cfg n) (x.setCommit c) = x.setCommit c' ∧
        (c' = x.commitIndex ∨ (x.commitIndex < c' ∧ c' ≤ x.logLen ∧ Committable cfg n x c')) := by
    intro l
    induction l with
    | nil => exact fun _ c hc => ⟨c, rfl, hc⟩
    | cons i rest ih =>
      intro hrange c hc
      have hrest := fun k hk => hrange k (mem_cons_of_mem _ hk)
      obtain ⟨hlt, hle⟩ := hrange i mem_cons_self
      rw [foldl_cons]
      -- a round reads nothing that an earlier round has written
      rcases commitRound_eq cfg n (x.setCommit c) i with ⟨heq, _⟩ | ⟨heq, hterm, hcount⟩
      · rw [heq]
        exact ih hrest c hc
      · rw [heq]
        exact ih hrest i (.inr ⟨hlt, hle, by omega, hterm, hcount⟩)
  refine hloop _ (fun i hi => ?_) x.commitIndex (.inl rfl)
  obtain ⟨k, hk, rfl⟩ := mem_range'.1 hi
  omega

/-- The commit index stays or moves to an index where the loop's conditions hold. -/
theorem updateCommitIndex_eq (cfg : Config N) (n : N) (x : Node N C B) :
    ∃ c, x.updateCommitIndex cfg n = x.setCommit c ∧
      (c = x.commitIndex ∨ Committable cfg n x c) := by
  obtain ⟨c, heq, hc⟩ := updateCommitIndex_spec cfg n x
  exact ⟨c, heq, hc.imp_right fun h => h.2.2⟩

/-- **What a response can touch**: the term, or the leader's bookkeeping and the commit index. -/
theorem appendEntriesReply_eq [DecidableEq N] (cfg : Config N) (self : N) (x : Node N C B)
    (peer : N) (req : AppendEntriesRequest N C) (nextIdx : Nat) (resp : AppendEntriesResponse) :
    appendEntriesReply cfg self x peer req nextIdx resp = x.observeTerm resp.term ∨
      ∃ next matched c, appendEntriesReply cfg self x peer req nextIdx resp =
        { x with nextIndex := next, matchIndex := matched, commitIndex := c } := by
  unfold appendEntriesReply
  split_ifs
  · exact .inl rfl
  · exact .inr ⟨x.nextIndex, x.matchIndex, x.commitIndex, rfl⟩
  · obtain ⟨c, hc, _⟩ := updateCommitIndex_eq cfg self { x with
      nextIndex := Function.update x.nextIndex peer (nextIdx + req.entries.length)
      matchIndex := Function.update x.matchIndex peer (nextIdx + req.entries.length - 1) }
    exact .inr ⟨_, _, c, hc⟩
  · exact .inr ⟨_, x.matchIndex, x.commitIndex, rfl⟩
  · exact .inr ⟨x.nextIndex, x.matchIndex, x.commitIndex, rfl⟩

/-! ## What the standing of a node does -/

/-- Only the standing of a node has changed: its term, its vote, who leads and when it heard so. -/
def Node.Restands (x y : Node N C B) : Prop :=
  y = { x with
    state := y.state
    currentTerm := y.currentTerm
    votedFor := y.votedFor
    leaderId := y.leaderId
    leaderAddr := y.leaderAddr
    lastContact := y.lastContact }

theorem restands_observeTerm (x : Node N C B) (term : Nat) : x.Restands (x.observeTerm term) := by
  unfold Node.observeTerm
  split_ifs <;> exact rfl

theorem restands_handleRequestVote [DecidableEq N] (now : Nat) (x : Node N C B)
    (req : RequestVoteRequest N) : x.Restands (handleRequestVote now x req).1 := by
  have hobs := restands_observeTerm x req.term
  unfold handleRequestVote
  dsimp only
  split_ifs
  · exact rfl
  · exact congrArg (fun y : Node N C B =>
      { y with votedFor := some req.candidateId, lastContact := now }) hobs
  · exact hobs

/-! ## What the log part of a node does -/

/-- The in-memory log with the boundary below it. -/
def Node.logPart (x : Node N C B) : List (LogEntry C) × Nat × Nat × Nat :=
  (x.log, x.logOffset, x.snapshotIndex, x.snapshotTerm)

theorem logPart_observeTerm (x : Node N C B) (term : Nat) :
    (x.observeTerm term).logPart = x.logPart :=
  (congrArg Node.logPart (restands_observeTerm x term) :)

theorem logPart_handleRequestVote [DecidableEq N] (now : Nat) (x : Node N C B)
    (req : RequestVoteRequest N) : (handleRequestVote now x req).1.logPart = x.logPart :=
  (congrArg Node.logPart (restands_handleRequestVote now x req) :)

theorem logPart_updateCommitIndex (cfg : Config N) (self : N) (x : Node N C B) :
    (x.updateCommitIndex cfg self).logPart = x.logPart := by
  obtain ⟨c, hc, _⟩ := updateCommitIndex_eq cfg self x
  rw [hc]
  rfl

theorem logPart_appendEntriesReply [DecidableEq N] (cfg : Config N) (self : N) (x : Node N C B)
    (peer : N) (req : AppendEntriesRequest N C) (nextIdx : Nat) (resp : AppendEntriesResponse) :
    (appendEntriesReply cfg self x peer req nextIdx resp).logPart = x.logPart := by
  rcases appendEntriesReply_eq cfg self x peer req nextIdx resp with h | ⟨_, _, _, h⟩ <;> rw [h]
  · exact logPart_observeTerm x resp.term
  · rfl

/-- Receiving a chunk changes the pending transfer only. -/
theorem receiveChunk_pending (cfg : Config N) (self : N) (io : ChunkIo) (x : Node N C B)
    (req : InstallSnapshotRequest N B) :
    ∃ p, (receiveChunk cfg self io x req).1 = { x with pending := p } := by
  unfold receiveChunk
  dsimp only
  split_ifs <;> exact ⟨_, rfl⟩

/-- **What a chunk can touch**: nothing, or who leads and the pending transfer. -/
theorem handleInstallSnapshot_eq (cfg : Config N) (self : N) (now : Nat) (io : ChunkIo)
    (x : Node N C B) (req : InstallSnapshotRequest N B) :
    (handleInstallSnapshot cfg self now io x req).1 = x ∨
      ∃ p, (handleInstallSnapshot cfg self now io x req).1 =
        { x.hearLeader now req.term req.leaderID req.leaderAddress with pending := p } := by
  unfold handleInstallSnapshot
  dsimp only
  split_ifs
  · exact .inl rfl
  · exact .inl rfl
  · exact .inr ⟨x.pending, rfl⟩
  · exact .inr (receiveChunk_pending cfg self io _ req)

theorem logPart_handleInstallSnapshot (cfg : Config N) (self : N) (now : Nat) (io : ChunkIo)
    (x : Node N C B) (req : InstallSnapshotRequest N B) :
    (handleInstallSnapshot cfg self now io x req).1.logPart = x.logPart := by
  rcases handleInstallSnapshot_eq cfg self now io x req with h | ⟨_, h⟩ <;> rw [h]
  rfl

/-! ## Building a request -/

/-- What a leader puts into an `AppendEntries` request. -/
theorem appendEntriesSnapshot_spec {cfg : Config N} {self peer : N} {nextIdx : Nat}
    {req : AppendEntriesRequest N C}
    (h : appendEntriesSnapshot cfg self x peer = some (req, nextIdx)) :
    x.state = .leader ∧ req.term = x.currentTerm ∧ req.prevLogIndex = nextIdx - 1 ∧
      req.leaderCommit = x.commitIndex ∧
      (req.prevLogTerm = 0 ∨ x.termAt (nextIdx - 1) = some req.prevLogTerm) ∧
      ∀ k e, req.entries[k]? = some e →
        x.logOffset < nextIdx ∧ x.log[nextIdx - x.logOffset - 1 + k]? = some e := by
  unfold appendEntriesSnapshot at h
  split_ifs at h with hl
  cases h
  refine ⟨hl, rfl, rfl, rfl, ?_, ?_⟩
  · dsimp only
    split_ifs
    · cases ht : x.termAt (x.nextIndex peer - 1) with
      | none => exact .inl rfl
      | some t => exact .inr rfl
    · exact .inl rfl
  · intro k e he
    rcases Nat.lt_or_ge x.logOffset (x.nextIndex peer) with hlt | hge
    · refine ⟨hlt, ?_⟩
      rcases Nat.lt_or_ge (x.logOffset + x.log.length) (x.nextIndex peer) with hgt | hle
      · rw [Node.sliceIndex, offsetToSlot_of_gt hgt] at he
        cases he
      · rw [Node.sliceIndex, offsetToSlot_of_lt hlt hle] at he
        rw [← getElem?_drop]
        exact he
    · rw [Node.sliceIndex, offsetToSlot_of_le hge] at he
      cases he

/-! ## Dropping what a snapshot covers -/

/-- A test that the first `m` elements of a list pass, and no others. -/
theorem filter_eq_take_drop {α : Type*} {l : List α} {p : α → Bool} {m : Nat}
    (h : ∀ (k : Nat) a, l[k]? = some a → (p a = true ↔ k < m)) :
    l.filter p = l.take m ∧ l.filter (fun a => !p a) = l.drop m := by
  have hlow : ∀ a ∈ l.take m, p a = true := by
    intro a ha
    obtain ⟨k, hk⟩ := mem_iff_getElem?.1 ha
    rw [getElem?_take] at hk
    split_ifs at hk with hlt
    exact (h k a hk).2 hlt
  have hhigh : ∀ a ∈ l.drop m, p a = false := by
    intro a ha
    obtain ⟨k, hk⟩ := mem_iff_getElem?.1 ha
    rw [getElem?_drop] at hk
    exact Bool.eq_false_iff.2 fun hp => Nat.not_lt.2 (Nat.le_add_right m k) ((h _ a hk).1 hp)
  have hsplit : ∀ q, l.filter q = (l.take m).filter q ++ (l.drop m).filter q := fun q => by
    rw [← filter_append, take_append_drop]
  constructor
  · rw [hsplit, filter_eq_self.2 hlow,
      filter_eq_nil_iff.2 fun a ha => by simp [hhigh a ha], append_nil]
  · rw [hsplit, filter_eq_nil_iff.2 fun a ha => by simp [hlow a ha],
      filter_eq_self.2 fun a ha => by simp [hhigh a ha], nil_append]

/-- In a numbered log, the entries up to an index are a first part and the others the rest. -/
theorem Node.Indexed.filter_index (hx : x.Indexed) (p : Nat) :
    x.log.filter (fun e => decide (e.index ≤ p)) = x.log.take (p - x.logOffset) ∧
      x.log.filter (fun e => !decide (e.index ≤ p)) = x.log.drop (p - x.logOffset) := by
  refine filter_eq_take_drop fun k e he => ?_
  rw [decide_eq_true_eq, hx k e he]
  omega

/-- In a numbered log, the entries above an index are a suffix. -/
theorem Node.Indexed.filter_eq_drop (hx : x.Indexed) (L : Nat) :
    x.log.filter (fun e => decide (L < e.index)) = x.log.drop (L - x.logOffset) := by
  rw [← (hx.filter_index L).2]
  refine filter_congr fun e _ => ?_
  rw [← decide_not, decide_eq_decide, Nat.not_le]

theorem finishInstall_log (hx : x.Indexed) (L T : Nat) :
    (finishInstall x L T).log = x.log.drop (L - x.logOffset) := hx.filter_eq_drop L

theorem finishInstall_indexed (hx : x.Indexed) (L T : Nat) : (finishInstall x L T).Indexed := by
  intro k e he
  rw [finishInstall_log hx, getElem?_drop] at he
  have := hx _ e he
  show e.index = max x.logOffset L + k + 1
  omega

variable {index : Nat}

theorem compactValidate_lt (h : compactValidate x index = some term) :
    x.snapshotIndex < index := by
  unfold compactValidate at h
  split_ifs at h with hbad
  omega

theorem compactValidate_le (h : compactValidate x index = some term) :
    index ≤ x.commitIndex := by
  unfold compactValidate at h
  split_ifs at h with hbad
  omega

/-- The last section of `CompactLog`, on a node whose window starts at its snapshot. -/
theorem compactFinish_log (hb : x.snapshotIndex = x.logOffset) {A : Nat} (hA : x.snapshotIndex < A)
    (T : Nat) : (compactFinish x A T).log = x.log.drop (A - x.logOffset) ∧
      (compactFinish x A T).logOffset = A ∧ (compactFinish x A T).snapshotIndex = A ∧
      (compactFinish x A T).snapshotTerm = T := by
  unfold compactFinish
  rw [if_neg (by omega)]
  refine ⟨?_, rfl, rfl, rfl⟩
  dsimp only
  rw [if_pos (by omega)]
  rcases Nat.lt_or_ge (x.logOffset + x.log.length) (A + 1) with hgt | hle
  · rw [offsetToSlot_of_gt hgt, getD_none, drop_length, drop_eq_nil_of_le (by omega)]
  · rw [offsetToSlot_of_lt (by omega) hle, getD_some]
    congr 1
    omega

theorem compactFinish_indexed (hx : x.Indexed) (hb : x.snapshotIndex = x.logOffset) (A T : Nat) :
    (compactFinish x A T).Indexed := by
  rcases Nat.lt_or_ge x.snapshotIndex A with hlt | hge
  · obtain ⟨hlog, hoff, _, _⟩ := compactFinish_log hb hlt T
    intro k e he
    rw [hlog, getElem?_drop] at he
    have := hx _ e he
    rw [hoff]
    omega
  · unfold compactFinish
    rw [if_pos hge]
    exact hx

end MxKeys.Raft
