/-
# MxKeys.Wal.GroupCommit — concurrent `Submit` calls and the order of their records.

`Submit` gives an entry its index and puts it in the log under the node lock. It persists the entry
without the lock: the record goes into the queue of the batcher, which writes and syncs the queue in
the order it was filled. So the order of the log is the order in which the calls got the lock, and
the order of the file is the order in which they reached the queue. `LoadFromDisk` appends the
records in file order. It rebuilds the log exactly when the two orders agree, provided that no
command is nested too deep to be decoded inside its record: `recovered_iff`.
-/
import MxKeys.Lib.Run
import MxKeys.Raft.Cluster
import MxKeys.Raft.LogView
import MxKeys.Wal.Format
import Mathlib.Data.List.Perm.Basic

namespace MxKeys.Wal

open MxKeys.Lib MxKeys.Raft
open List Option

variable {N B : Type*}

/-! ## A leader and its batcher -/

/-- A leader with `Submit` calls in progress. -/
structure Group (N B : Type*) where
  node : Node N Json B
  file : Bytes
  /-- Published, not handed to the batcher yet. -/
  waiting : List Entry
  /-- Queued in the batcher, in order. -/
  queue : List Entry
  /-- Written and synced, the call has not returned yet. -/
  persisted : List Entry
  /-- Every entry that was published, in the order of publication. -/
  published : List Entry
  /-- Every entry that was handed to the batcher, in that order. -/
  enqueued : List Entry

/-- A turn of a call or of the batcher. -/
inductive Turn (N : Type*) where
  /-- A call publishes its entry. -/
  | publish (command : Json)
  /-- The call at a position of `waiting` sends its entry to the batcher. -/
  | enqueue (i : Nat)
  /-- The batcher writes the first `k` queued records, syncs, and releases their calls. -/
  | flush (k : Nat)
  /-- A call that was released updates the commit index. -/
  | commit
  /-- Replies have raised the match indices, and the commit index is updated. -/
  | replied (matchIndex : N → Nat)
  /-- The call at a position of `persisted` finds its entry committed and returns `nil`. -/
  | return (i : Nat)

/-- One step; `none` if it cannot happen. -/
def Group.step [DecidableEq N] (cfg : Config N) (self : N) (key : Bytes) (g : Group N B) :
    Turn N → Option (Group N B)
  | .publish command =>
    (submitPublish g.node command).map fun p =>
      { g with
        node := p.1
        waiting := g.waiting ++ [p.2.1]
        published := g.published ++ [p.2.1] }
  | .enqueue i =>
    g.waiting[i]?.map fun e =>
      { g with
        waiting := g.waiting.eraseIdx i
        queue := g.queue ++ [e]
        enqueued := g.enqueued ++ [e] }
  | .flush k =>
    -- every write and the sync succeed
    if (g.queue.take k).all (fun e => decide (IsUint64 e)) then
      ((g.queue.take k).mapM (appendLocked key)).map fun written =>
        { g with
          file := g.file ++ written.flatten
          queue := g.queue.drop k
          persisted := g.persisted ++ g.queue.take k }
    else none
  | .commit => some { g with node := g.node.updateCommitIndex cfg self }
  | .replied matchIndex =>
    some { g with node := { g.node with matchIndex := matchIndex }.updateCommitIndex cfg self }
  | .return i =>
    match g.persisted[i]? with
    | some e =>
      if e.index ≤ g.node.commitIndex then some { g with persisted := g.persisted.eraseIdx i }
      else none
    | none => none

/-- A leader without calls in progress, whose file holds its log and is read to its end. -/
structure Ready (cfg : Config N) (me : N) (key : Bytes) (g : Group N B) : Prop where
  leader : g.node.state = .leader
  stateDir : cfg.stateDir me = true
  installer : g.node.snapshotFile.isSome → cfg.hasInstaller me = true
  offset : g.node.logOffset = coveredBy g.node.snapshotFile
  indexed : ∀ i e, g.node.log[i]? = some e → e.index = g.node.logOffset + i + 1
  file : ∃ bytes, g.file = walMagic ++ bytes
  clean : (readAll key g.file).2 = .clean
  records : (readAll key g.file).1.filter
    (fun e => decide (coveredBy g.node.snapshotFile < e.index)) = g.node.log
  idle : g.waiting = [] ∧ g.queue = [] ∧ g.persisted = [] ∧ g.published = [] ∧ g.enqueued = []

/-- Every call has returned. -/
def Group.AllReturned (g : Group N B) : Prop :=
  g.waiting = [] ∧ g.queue = [] ∧ g.persisted = []

/-- `LoadFromDisk` after a crash rebuilds the log of the node, every entry at its index. -/
def Recovers (cfg : Config N) (self : N) (key : Bytes) (now : Nat) (g : Group N B) : Prop :=
  ∃ x : Node N Json B,
    loadFromDisk cfg self true now g.node.snapshotFile (readAll key g.file).1
      (readAll key g.file).2 =
      some x ∧
    x.log = g.node.log ∧ ∀ i e, x.log[i]? = some e → e.index = x.logOffset + i + 1

/-! ## What the steps keep -/

variable {cfg : Config N} {self : N} {key : Bytes} {g₀ g g' : Group N B}

/-- The state between the start `g₀` and the crash. -/
structure GroupInv (key : Bytes) (g₀ g : Group N B) : Prop where
  snapshotFile : g.node.snapshotFile = g₀.node.snapshotFile
  logOffset : g.node.logOffset = g₀.node.logOffset
  log : g.node.log = g₀.node.log ++ g.published
  indexed : ∀ i e, g.node.log[i]? = some e → e.index = g.node.logOffset + i + 1
  /-- Each published entry is handed over once. -/
  perm : (g.waiting ++ g.enqueued).Perm g.published
  /-- The file holds the records of what left the queue, in order. -/
  file : ∃ flushed written, g.enqueued = flushed ++ g.queue ∧
    Forall₂ (fun e w => appendLocked key e = some w) flushed written ∧
    (∀ e ∈ flushed, IsUint64 e) ∧ g.file = g₀.file ++ written.flatten

theorem Ready.groupInv (h : Ready cfg self key g) : GroupInv key g g := by
  obtain ⟨hwaiting, hqueue, -, hpublished, henqueued⟩ := h.idle
  refine ⟨rfl, rfl, by simp [hpublished], h.indexed, by simp [hwaiting, henqueued, hpublished], ?_⟩
  exact ⟨[], [], by simp [henqueued, hqueue], .nil, by simp, by simp⟩

section Kept

variable (h : GroupInv key g₀ g)
include h

theorem GroupInv.publish [DecidableEq N] {command : Json}
    (hs : g.step cfg self key (.publish command) = some g') : GroupInv key g₀ g' := by
  obtain ⟨p, hp, rfl⟩ := map_eq_some_iff.1 hs
  unfold submitPublish at hp
  split at hp
  · cases hp
    refine ⟨h.snapshotFile, h.logOffset, ?_, ?_, ?_, h.file⟩
    · show g.node.log ++ [_] = _
      rw [h.log, append_assoc]
    · intro i e he
      change (g.node.log ++ [_])[i]? = some e at he
      rw [getElem?_append] at he
      split at he
      · exact h.indexed i e he
      · -- the new entry, at the end of the log
        rename_i hi
        obtain ⟨hlt, rfl⟩ := List.getElem?_eq_some_iff.1 he
        simp only [length_singleton] at hlt
        have hi : i = g.node.log.length := by omega
        subst hi
        simp [Node.logLen, Node.pushEntry]
    · show ((g.waiting ++ [_]) ++ g.enqueued).Perm (g.published ++ [_])
      rw [append_assoc]
      exact (perm_append_comm_assoc _ _ _).trans
        (((h.perm.append_left [_]).trans perm_append_comm))
  · cases hp

theorem GroupInv.enqueue [DecidableEq N] {i : Nat}
    (hs : g.step cfg self key (.enqueue i) = some g') : GroupInv key g₀ g' := by
  obtain ⟨e, he, rfl⟩ := map_eq_some_iff.1 hs
  obtain ⟨flushed, written, hq, hw, h64, hfile⟩ := h.file
  refine ⟨h.snapshotFile, h.logOffset, h.log, h.indexed, ?_, flushed, written, ?_, hw, h64, hfile⟩
  · show (g.waiting.eraseIdx i ++ (g.enqueued ++ [e])).Perm g.published
    obtain ⟨hi, rfl⟩ := List.getElem?_eq_some_iff.1 he
    have hmove : (g.waiting[i] :: g.waiting.eraseIdx i).Perm g.waiting :=
      getElem_cons_eraseIdx_perm hi
    refine Perm.trans ?_ h.perm
    refine Perm.trans ?_ (hmove.append_right g.enqueued)
    rw [← append_assoc]
    exact perm_append_comm
  · show g.enqueued ++ [e] = flushed ++ (g.queue ++ [e])
    rw [hq, append_assoc]

theorem GroupInv.flush [DecidableEq N] {k : Nat}
    (hs : g.step cfg self key (.flush k) = some g') : GroupInv key g₀ g' := by
  simp only [Group.step] at hs
  split at hs
  · rename_i h64'
    obtain ⟨batch, hbatch, rfl⟩ := map_eq_some_iff.1 hs
    obtain ⟨flushed, written, hq, hw, h64, hfile⟩ := h.file
    have hbatch := forall₂_of_mapM hbatch
    refine ⟨h.snapshotFile, h.logOffset, h.log, h.indexed, h.perm,
      flushed ++ g.queue.take k, written ++ batch, ?_, rel_append hw hbatch, ?_, ?_⟩
    · show g.enqueued = flushed ++ g.queue.take k ++ g.queue.drop k
      rw [append_assoc, take_append_drop, hq]
    · intro e he
      rcases mem_append.1 he with he | he
      · exact h64 e he
      · simpa using all_eq_true.1 h64' e he
    · show g.file ++ batch.flatten = _
      rw [hfile, flatten_append, append_assoc]
  · cases hs

theorem GroupInv.setCommit (c : Nat) (matchIndex : N → Nat) : GroupInv key g₀
      { g with node := { g.node with commitIndex := c, matchIndex := matchIndex } } :=
  ⟨h.snapshotFile, h.logOffset, h.log, h.indexed, h.perm, h.file⟩

theorem GroupInv.step [DecidableEq N] {a : Turn N} (hs : g.step cfg self key a = some g') :
    GroupInv key g₀ g' := by
  cases a with
  | publish command => exact h.publish hs
  | enqueue i => exact h.enqueue hs
  | flush k => exact h.flush hs
  | commit =>
    obtain ⟨c, hc, -⟩ := updateCommitIndex_eq cfg self g.node
    simp only [Group.step, hc, some.injEq] at hs
    subst hs
    exact h.setCommit c g.node.matchIndex
  | replied matchIndex =>
    obtain ⟨c, hc, -⟩ := updateCommitIndex_eq cfg self { g.node with matchIndex := matchIndex }
    simp only [Group.step, hc, some.injEq] at hs
    subst hs
    exact h.setCommit c matchIndex
  | «return» i =>
    simp only [Group.step] at hs
    split at hs
    · split at hs
      · cases hs
        exact ⟨h.snapshotFile, h.logOffset, h.log, h.indexed, h.perm, h.file⟩
      · cases hs
    · cases hs

/-! ## Recovery -/

/-- What the file holds once every call has returned. -/
theorem GroupInv.readAll (hready : Ready cfg self key g₀) (hdone : g.AllReturned) :
    readAll key g.file = ((readAll key g₀.file).1 ++ g.enqueued.takeWhile shallow,
      if g.enqueued.all shallow then .clean else .corrupt) := by
  obtain ⟨flushed, written, hq, hw, h64, hfile⟩ := h.file
  rw [hdone.2.1, append_nil] at hq
  subst hq
  obtain ⟨bytes, hbytes⟩ := hready.file
  have hclean := hready.clean
  rw [hbytes, readAll_magic] at hclean
  rw [hfile, hbytes, append_assoc, readAll_magic, readAll_magic,
    readRecords_extend _ hclean, readRecords_written hw h64]

/-- Published entries lie above the snapshot. -/
theorem GroupInv.above {e : Entry} (he : e ∈ g.published) : g.node.logOffset < e.index := by
  have hmem : e ∈ g.node.log := by
    rw [h.log]
    exact mem_append_right _ he
  obtain ⟨i, hi⟩ := mem_iff_getElem?.1 hmem
  rw [h.indexed i e hi]
  omega

/-- The log that `LoadFromDisk` builds: the old one and the records in file order. -/
theorem GroupInv.recovered [DecidableEq N] (hready : Ready cfg self key g₀)
    (hdone : g.AllReturned) (now : Nat) :
    ∃ x : Node N Json B,
      loadFromDisk cfg self true now g.node.snapshotFile (Wal.readAll key g.file).1
        (Wal.readAll key g.file).2 = some x ∧
      x.log = g₀.node.log ++ g.enqueued.takeWhile shallow ∧ x.logOffset = g.node.logOffset := by
  have hread := h.readAll hready hdone
  have hstatus : (Wal.readAll key g.file).2 ≠ .tampered := by
    rw [hread]
    dsimp only
    split <;> decide
  obtain ⟨x, hx⟩ : ∃ x : Node N Json B,
      loadFromDisk cfg self true now g.node.snapshotFile (Wal.readAll key g.file).1
        (Wal.readAll key g.file).2 = some x := by
    unfold loadFromDisk
    rw [if_neg (by simp [hready.stateDir]), if_neg ?_, if_neg hstatus, if_neg (by simp)]
    · exact ⟨_, rfl⟩
    · rw [h.snapshotFile]
      cases hf : g₀.node.snapshotFile.isSome with
      | false => simp
      | true => simp [hready.installer hf]
  obtain ⟨hlog, hoffset⟩ := loadFromDisk_log hready.stateDir hx
  have hcovered : coveredBy g.node.snapshotFile = g.node.logOffset := by
    rw [h.snapshotFile, h.logOffset, hready.offset]
  refine ⟨x, hx, ?_, hoffset.trans hcovered⟩
  rw [hlog, hread, filter_append, h.snapshotFile, hready.records]
  congr 1
  refine filter_eq_self.2 fun e he => ?_
  have he : e ∈ g.published := h.perm.subset (mem_append_right _ (takeWhile_subset _ he))
  rw [← h.snapshotFile, hcovered]
  simpa using h.above he

end Kept

/-- **Recovery after concurrent `Submit` calls.** For every interleaving after which all calls have
returned, `LoadFromDisk` rebuilds the log exactly if the records were queued in the order in which
the entries were published and every command can be decoded inside its record. -/
theorem recovered_iff [DecidableEq N] (hready : Ready cfg self key g₀)
    (hs : Reach (Group.step cfg self key) anyAction g₀ g) (hdone : g.AllReturned) (now : Nat) :
    Recovers cfg self key now g ↔
      g.enqueued = g.published ∧ ∀ e ∈ g.published, e.command.depth < Json.maxNestingDepth := by
  have h : GroupInv key g₀ g :=
    hs.invariant hready.groupInv fun _ _ _ h _ hu => h.step hu
  obtain ⟨x, hx, hlog, hoffset⟩ := h.recovered hready hdone now
  have hperm : g.enqueued.Perm g.published := by
    have := h.perm
    rwa [hdone.1, nil_append] at this
  constructor
  · rintro ⟨y, hy, hsame, -⟩
    rw [hx] at hy
    cases hy
    rw [hlog, h.log, append_cancel_left_eq] at hsame
    -- as many records are read as entries were published, so none is missing
    have hread : g.enqueued.takeWhile shallow <+: g.enqueued := takeWhile_prefix _
    have hall : g.enqueued.takeWhile shallow = g.enqueued :=
      hread.sublist.eq_of_length (by rw [hsame, hperm.length_eq])
    rw [hall] at hsame
    refine ⟨hsame, fun e he => ?_⟩
    have hshallow := takeWhile_eq_self_iff.1 hall e (hperm.symm.subset he)
    simpa [shallow] using hshallow
  · rintro ⟨hsame, hdepth⟩
    have hall : g.enqueued.takeWhile shallow = g.enqueued :=
      takeWhile_eq_self_iff.2 fun e he => by
        simpa [shallow] using hdepth e (hperm.subset he)
    have heq : x.log = g.node.log := by rw [hlog, hall, hsame, h.log]
    refine ⟨x, hx, heq, fun i e he => ?_⟩
    rw [hoffset]
    exact h.indexed i e (heq ▸ he)

/-! ## Schedules -/

/-- A leader of term `1` with an empty log and an empty file. -/
def freshLeader : Group N B where
  node := { newNode 0 with state := .leader, currentTerm := 1 }
  file := walMagic
  waiting := []
  queue := []
  persisted := []
  published := []
  enqueued := []

theorem freshLeader_ready (hdir : cfg.stateDir self = true) :
    Ready cfg self key (freshLeader : Group N B) :=
  ⟨rfl, hdir, fun h => (by cases h), rfl, fun i e he => (by simp [freshLeader, newNode] at he),
    ⟨[], rfl⟩, rfl, rfl, rfl, rfl, rfl, rfl, rfl⟩

/-- Two calls publish; the call at position `first` reaches the queue before the other one. -/
def twoCalls (N : Type*) (first : Nat) : List (Turn N) :=
  [.publish .null, .publish .null, .enqueue first, .enqueue 0, .flush 2, .commit,
    .replied fun _ => 2, .return 0, .return 0]

/-- The indices in the order of publication and in the order of the queue, when all calls have
returned. -/
def Group.orders (g : Group N B) : Option (List Nat × List Nat) :=
  if g.waiting.isEmpty && g.queue.isEmpty && g.persisted.isEmpty then
    some (g.published.map (·.index), g.enqueued.map (·.index))
  else none

theorem orders_some {l₁ l₂ : List Nat} (h : g.orders = some (l₁, l₂)) :
    g.AllReturned ∧ g.published.map (·.index) = l₁ ∧ g.enqueued.map (·.index) = l₂ := by
  unfold Group.orders at h
  split at h
  · rename_i hdone
    cases h
    simp only [Bool.and_eq_true, List.isEmpty_iff] at hdone
    exact ⟨⟨hdone.1.1, hdone.1.2, hdone.2⟩, rfl, rfl⟩
  · cases h

/-- **Two calls that swap on the way to the queue**: both return `nil`, and `LoadFromDisk` rebuilds
the log in the wrong order. -/
theorem recovered_swapped :
    ∃ g : Group (Fin 3) Nat,
      Ready (.complete 3 1) 0 [1] (freshLeader : Group (Fin 3) Nat) ∧
      Reach (Group.step (.complete 3 1) 0 [1]) anyAction freshLeader g ∧ g.AllReturned ∧
      ¬Recovers (.complete 3 1) 0 [1] 0 g := by
  have hrun : (execute (Group.step (.complete 3 1) 0 [1]) (fun _ _ => true)
      (freshLeader : Group (Fin 3) Nat) (twoCalls (Fin 3) 1)).map Group.orders =
      some (some ([1, 2], [2, 1])) := by decide +kernel
  obtain ⟨g, hs, horders⟩ := reach_observe_any hrun
  obtain ⟨hdone, hpublished, henqueued⟩ := orders_some horders
  have hready : Ready (.complete 3 1) 0 [1] (freshLeader : Group (Fin 3) Nat) :=
    freshLeader_ready rfl
  have h : GroupInv [1] freshLeader g :=
    hs.invariant hready.groupInv fun _ _ _ h _ hu => h.step hu
  refine ⟨g, hready, hs, hdone, ?_⟩
  rintro ⟨x, hx, hsame, -⟩
  obtain ⟨y, hy, hlog, -⟩ := h.recovered hready hdone 0
  rw [hx] at hy
  cases hy
  -- the first record that is read has index `2`, the first entry of the log index `1`
  have hread : x.log.map (·.index) <+: [2, 1] := by
    rw [hlog, ← henqueued]
    have hread : g.enqueued.takeWhile shallow <+: g.enqueued := takeWhile_prefix _
    exact hread.map _
  rw [hsame, h.log, map_append, hpublished] at hread
  exact absurd hread (by decide)

/-- Two calls that keep their order are recovered. -/
theorem recovered_iff_inOrder :
    ∃ g : Group (Fin 3) Nat,
      Reach (Group.step (.complete 3 1) 0 [1]) anyAction freshLeader g ∧
      g.published.map (·.index) = [1, 2] ∧ Recovers (.complete 3 1) 0 [1] 0 g := by
  have hrun : (execute (Group.step (.complete 3 1) 0 [1]) (fun _ _ => true)
      (freshLeader : Group (Fin 3) Nat) (twoCalls (Fin 3) 0)).map
        (fun g => (g.orders, g.published, g.enqueued)) =
      some (some ([1, 2], [1, 2]), [⟨1, 1, .null⟩, ⟨2, 1, .null⟩],
        [⟨1, 1, .null⟩, ⟨2, 1, .null⟩]) := rfl
  obtain ⟨g, hs, hobs⟩ := reach_observe_any hrun
  simp only [Prod.mk.injEq] at hobs
  obtain ⟨horders, hpublished, henqueued⟩ := hobs
  obtain ⟨hdone, hindices, -⟩ := orders_some horders
  refine ⟨g, hs, hindices, (recovered_iff (freshLeader_ready rfl) hs hdone 0).2 ?_⟩
  rw [hpublished, henqueued]
  exact ⟨rfl, by decide⟩

end MxKeys.Wal
