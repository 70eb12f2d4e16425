/-
# MxKeys.Raft.Recovery — what a node is after `LoadFromDisk`.

A restarted node is a fresh one with the snapshot's boundary and the records of the write-ahead log
above it.  Neither the term nor the vote is on disk: the term becomes the highest one that the
snapshot and these records carry (`loadFromDisk_currentTerm_le_iff`), and the vote is empty.
-/
import MxKeys.Raft.Handlers

namespace MxKeys.Raft

variable {N C B : Type*}

/-- How `ReadAll` ended: at the end of the file, at a record that is not well formed
(`ErrWALCorrupt`), or at one whose HMAC does not match (`ErrWALTampered`). -/
inductive WalStatus
  | clean
  | corrupt
  | tampered
  deriving DecidableEq

/-- The `haveSnapshot` part of the last phase. -/
def Node.loadSnapshot (n : Node N C B) (snap : Snapshot B) : Node N C B :=
  { n with
    snapshotIndex := snap.lastIncludedIndex
    snapshotTerm := snap.lastIncludedTerm
    logOffset := snap.lastIncludedIndex
    commitIndex := snap.lastIncludedIndex
    lastApplied := snap.lastIncludedIndex
    currentTerm :=
      if n.currentTerm < snap.lastIncludedTerm then snap.lastIncludedTerm else n.currentTerm
    snapshotFile := some snap }

/-- One round of the loop over `walEntries`. -/
def Node.loadRecord (n : Node N C B) (e : LogEntry C) : Node N C B :=
  if e.index ≤ n.snapshotIndex then n
  else
    { n with
      log := n.log ++ [e]
      currentTerm := if n.currentTerm < e.term then e.term else n.currentTerm }

/-- The node before the loop. -/
def loadBase (now : Nat) (file : Option (Snapshot B)) : Node N C B :=
  match file with
  | some snap => (newNode now).loadSnapshot snap
  | none => newNode now

/-- `LoadFromDisk` on a new node, for the snapshot file and what `ReadAll` returned.  It fails on a
tampered log, on a snapshot without an installer, and when the installer fails (`installOk`); a
corrupt tail is not a failure. -/
def loadFromDisk (cfg : Config N) (self : N) (installOk : Bool) (now : Nat)
    (file : Option (Snapshot B)) (walEntries : List (LogEntry C)) (status : WalStatus) :
    Option (Node N C B) :=
  if !cfg.stateDir self then some (newNode now)
  else if file.isSome && !cfg.hasInstaller self then none
  else if status = .tampered then none
  else if file.isSome && !installOk then none
  else some ((walEntries.foldl Node.loadRecord (loadBase now file)).setWal walEntries)

/-- The index below which records are skipped. -/
def coveredBy (file : Option (Snapshot B)) : Nat := (file.map Snapshot.lastIncludedIndex).getD 0

theorem loadBase_snapshotIndex (now : Nat) (file : Option (Snapshot B)) :
    (loadBase now file : Node N C B).snapshotIndex = coveredBy file := by
  cases file <;> rfl

theorem loadRecord_of_le {n : Node N C B} {e : LogEntry C} (h : e.index ≤ n.snapshotIndex) :
    n.loadRecord e = n := if_pos h

theorem loadRecord_of_lt {n : Node N C B} {e : LogEntry C} (h : n.snapshotIndex < e.index) :
    n.loadRecord e =
      { n with log := n.log ++ [e], currentTerm := max n.currentTerm e.term } := by
  unfold Node.loadRecord
  rw [if_neg (Nat.not_le.2 h)]
  split_ifs with hup
  · rw [Nat.max_eq_right (Nat.le_of_lt hup)]
  · rw [Nat.max_eq_left (Nat.not_lt.1 hup)]

/-- The loop over the records: everything but the log and the term stays, the log gains the records
above the snapshot in file order, and the term bounds what it bounded before and theirs. -/
theorem foldl_loadRecord (walEntries : List (LogEntry C)) (n : Node N C B) :
    ∃ term, walEntries.foldl Node.loadRecord n =
        { n with
          log := n.log ++ walEntries.filter (fun e => decide (n.snapshotIndex < e.index))
          currentTerm := term } ∧
      ∀ T, term ≤ T ↔
        n.currentTerm ≤ T ∧ ∀ e ∈ walEntries, n.snapshotIndex < e.index → e.term ≤ T := by
  induction walEntries generalizing n with
  | nil => exact ⟨n.currentTerm, by simp, fun T => by simp⟩
  | cons e rest ih =>
    rw [List.foldl_cons]
    rcases Nat.lt_or_ge n.snapshotIndex e.index with hlt | hge
    · rw [loadRecord_of_lt hlt, List.filter_cons_of_pos (by simpa using hlt)]
      obtain ⟨term, heq, hterm⟩ := ih { n with
        log := n.log ++ [e], currentTerm := max n.currentTerm e.term }
      refine ⟨term, by rw [heq]; simp, fun T => ?_⟩
      rw [hterm T, Nat.max_le, List.forall_mem_cons]
      simp [hlt, and_assoc]
    · rw [loadRecord_of_le hge, List.filter_cons_of_neg (by simpa using hge)]
      obtain ⟨term, heq, hterm⟩ := ih n
      refine ⟨term, heq, fun T => ?_⟩
      rw [hterm T]
      simp [Nat.not_lt.2 hge]

variable {cfg : Config N} {self : N} {installOk : Bool} {now : Nat} {file : Option (Snapshot B)}
  {walEntries : List (LogEntry C)} {status : WalStatus} {x : Node N C B}

/-- No term above `T` is on disk, as far as `LoadFromDisk` looks. -/
def DiskBelow (file : Option (Snapshot B)) (walEntries : List (LogEntry C)) (T : Nat) : Prop :=
  (∀ snap, file = some snap → snap.lastIncludedTerm ≤ T) ∧
    ∀ e ∈ walEntries, coveredBy file < e.index → e.term ≤ T

theorem loadFromDisk_some (hdir : cfg.stateDir self = true)
    (h : loadFromDisk cfg self installOk now file walEntries status = some x) :
    x = (walEntries.foldl Node.loadRecord (loadBase now file)).setWal walEntries := by
  unfold loadFromDisk at h
  split_ifs at h with h1
  · simp [hdir] at h1
  · exact (Option.some.inj h).symm

/-- **The log after a restart**: the records above the snapshot, in file order. -/
theorem loadFromDisk_log (hdir : cfg.stateDir self = true)
    (h : loadFromDisk cfg self installOk now file walEntries status = some x) :
    x.log = walEntries.filter (fun e => decide (coveredBy file < e.index)) ∧
      x.logOffset = coveredBy file := by
  obtain ⟨term, heq, _⟩ := foldl_loadRecord walEntries (loadBase now file : Node N C B)
  rw [loadFromDisk_some hdir h, heq, loadBase_snapshotIndex]
  cases file <;> exact ⟨rfl, rfl⟩

/-- **The term after a restart** is the highest one on disk. -/
theorem loadFromDisk_currentTerm_le_iff (hdir : cfg.stateDir self = true)
    (h : loadFromDisk cfg self installOk now file walEntries status = some x) (T : Nat) :
    x.currentTerm ≤ T ↔ DiskBelow file walEntries T := by
  obtain ⟨term, heq, hterm⟩ := foldl_loadRecord walEntries (loadBase now file : Node N C B)
  rw [loadFromDisk_some hdir h, heq]
  show term ≤ T ↔ _
  rw [hterm T, loadBase_snapshotIndex, DiskBelow]
  cases file with
  | none => simp [loadBase, newNode]
  | some snap =>
    have hbase : (loadBase now (some snap) : Node N C B).currentTerm = snap.lastIncludedTerm := by
      show (if 0 < snap.lastIncludedTerm then snap.lastIncludedTerm else 0) = _
      split_ifs <;> omega
    rw [hbase]
    simp

end MxKeys.Raft
