/-
# MxKeys.Raft.Node — the state of one Raft node and its view of the log.

The in-memory log holds the entries above `logOffset`; everything below lives in the snapshot file.
All indices are absolute and 1-based, and every access goes through `offsetToSlot`, the one place
where an index becomes a position in the slice.  Functions return `Option` where the source returns
a second `ok` result.

Node names stand for both the `NodeID` and the address other nodes dial: the model has one name per
node, and `none` is the empty string (`votedFor`, `leaderId`, `leaderAddr`).  `NewCluster` never
starts a node with an empty `NodeID`, so the empty string names nobody.  Terms and indices are
unbounded, where the source has `uint64`: an index grows by one, and a term does so or is set to
that of a message, so that it reaches the bound only when a message does.
-/
import Mathlib.Logic.Function.Basic
import Mathlib.Data.List.Basic

namespace MxKeys.Raft

/-- Raft node state. -/
inductive State
  | follower
  | candidate
  | leader
  deriving DecidableEq

/-- An entry of the Raft log.  `C` is the type of commands, as JSON values. -/
@[ext]
structure LogEntry (C : Type*) where
  index : Nat
  term : Nat
  command : C
  deriving DecidableEq

/-- A persisted snapshot: the file `raft.snapshot`.  `B` is the type of bytes. -/
structure Snapshot (B : Type*) where
  lastIncludedIndex : Nat
  lastIncludedTerm : Nat
  data : List B
  deriving DecidableEq

/-- The `pendingSnapshot*` fields: an `InstallSnapshot` transfer in flight. -/
structure PendingSnapshot (B : Type*) where
  index : Nat
  term : Nat
  /-- The bytes received so far; `pendingSnapshotExpected` is their number. -/
  data : List B

/-- Nothing in flight. -/
def PendingSnapshot.none {B : Type*} : PendingSnapshot B := ⟨0, 0, []⟩

/-- The configuration of a cluster: every node lists every other node exactly once. -/
structure Config (N : Type*) where
  peers : N → List N
  peers_nodup : ∀ n, (peers n).Nodup
  mem_peers : ∀ n m, m ∈ peers n ↔ m ≠ n
  electionTimeout : Nat
  /-- `advertiseAddr`; `none` when neither an advertised nor a bind address is usable. -/
  advertiseAddr : N → Option N
  /-- Whether a state directory is attached. -/
  stateDir : N → Bool
  /-- Whether a `SnapshotInstaller` is registered. -/
  hasInstaller : N → Bool

/-- A Raft node. -/
structure Node (N C B : Type*) where
  state : State
  currentTerm : Nat
  votedFor : Option N
  log : List (LogEntry C)
  commitIndex : Nat
  lastApplied : Nat
  logOffset : Nat
  snapshotIndex : Nat
  snapshotTerm : Nat
  pending : PendingSnapshot B
  nextIndex : N → Nat
  matchIndex : N → Nat
  leaderId : Option N
  leaderAddr : Option N
  lastContact : Nat
  /-- The records of the write-ahead log, oldest first. -/
  wal : List (LogEntry C)
  /-- The snapshot file. -/
  snapshotFile : Option (Snapshot B)

variable {N C B : Type*}

/-- `NewNode`, at time `now`. -/
def newNode (now : Nat) : Node N C B where
  state := .follower
  currentTerm := 0
  votedFor := none
  log := []
  commitIndex := 0
  lastApplied := 0
  logOffset := 0
  snapshotIndex := 0
  snapshotTerm := 0
  pending := .none
  nextIndex := fun _ => 0
  matchIndex := fun _ => 0
  leaderId := none
  leaderAddr := none
  lastContact := now
  wal := []
  snapshotFile := none

/-! ## The log view -/

/-- Position in the slice of an absolute index, if it lies in the in-memory window. -/
def offsetToSlot (absoluteIndex logOffset logLen : Nat) : Option Nat :=
  if absoluteIndex = 0 ∨ absoluteIndex ≤ logOffset then none
  else if logLen ≤ absoluteIndex - logOffset - 1 then none
  else some (absoluteIndex - logOffset - 1)

/-- The absolute index of the last entry known to this node, compacted ones included. -/
def Node.logLen (n : Node N C B) : Nat := n.logOffset + n.log.length

/-- `sliceIndex`. -/
def Node.sliceIndex (n : Node N C B) (absoluteIndex : Nat) : Option Nat :=
  offsetToSlot absoluteIndex n.logOffset n.log.length

/-- `entryAt`. -/
def Node.entryAt (n : Node N C B) (absoluteIndex : Nat) : Option (LogEntry C) :=
  (n.sliceIndex absoluteIndex).bind fun slot => n.log[slot]?

/-- The term of the entry at an index; the snapshot's term at the compaction boundary. -/
def Node.termAt (n : Node N C B) (absoluteIndex : Nat) : Option Nat :=
  if absoluteIndex = 0 then some 0
  else if absoluteIndex = n.snapshotIndex then some n.snapshotTerm
  else (n.entryAt absoluteIndex).map LogEntry.term

/-- Index and term of the highest known entry. -/
def Node.lastLogIndexTerm (n : Node N C B) : Nat × Nat :=
  match n.log.getLast? with
  | none => (n.snapshotIndex, n.snapshotTerm)
  | some last => (last.index, last.term)

/-- Append to the in-memory log. -/
def Node.pushEntry (n : Node N C B) (entry : LogEntry C) : Node N C B :=
  { n with log := n.log ++ [entry] }

/-- Drop in-memory entries above `lastKeepIndex`. -/
def Node.truncateSliceAfter (n : Node N C B) (lastKeepIndex : Nat) : Node N C B :=
  if lastKeepIndex ≤ n.logOffset then { n with log := [] }
  else
    match offsetToSlot (lastKeepIndex + 1) n.logOffset n.log.length with
    | none => n
    | some slot => { n with log := n.log.take slot }

/-- The election restriction: is a log ending in the given index and term at least as up to date as
this node's? -/
def Node.isLogUpToDate (n : Node N C B) (lastLogIndex lastLogTerm : Nat) : Bool :=
  let (myLastIndex, myLastTerm) := n.lastLogIndexTerm
  if lastLogTerm ≠ myLastTerm then decide (myLastTerm < lastLogTerm)
  else decide (myLastIndex ≤ lastLogIndex)

/-! ## Persistence

`ok` is the outcome of the write.  A node without a state directory has no write-ahead log, and its
writes succeed without writing.  After a failed write the node's memory is what the source leaves it
at; the records of a log that failed to take a write are not read again in the same run. -/

/-- Whether a write-ahead-log operation of node `self` succeeds, when the disk answers `ok`. -/
def Config.diskOk (cfg : Config N) (self : N) (ok : Bool) : Bool := !cfg.stateDir self || ok

/-- Replace the records of the write-ahead log. -/
def Node.setWal (n : Node N C B) (wal : List (LogEntry C)) : Node N C B := { n with wal := wal }

/-- `persistEntry` after a successful write. -/
def Node.persistEntry (n : Node N C B) (entry : LogEntry C) : Node N C B :=
  n.setWal (n.wal ++ [entry])

/-- `wal.TruncateAfter`. -/
def Node.walTruncateAfter (n : Node N C B) (lastKeepIndex : Nat) : Node N C B :=
  n.setWal (n.wal.filter fun e => e.index ≤ lastKeepIndex)

/-- `wal.TruncateBefore`. -/
def Node.walTruncateBefore (n : Node N C B) (firstKeepIndex : Nat) : Node N C B :=
  n.setWal (n.wal.filter fun e => firstKeepIndex ≤ e.index)

/-- The snapshot file is replaced. -/
def Node.setSnapshotFile (n : Node N C B) (file : Option (Snapshot B)) : Node N C B :=
  { n with snapshotFile := file }

/-! ## Commit index -/

/-- One round of the loop of `updateCommitIndex`. -/
def Node.commitRound (cfg : Config N) (self : N) (n : Node N C B) (i : Nat) : Node N C B :=
  match n.termAt i with
  | none => n
  | some term =>
    if term ≠ n.currentTerm then n
    else
      let matched := 1 + ((cfg.peers self).filter fun p => i ≤ n.matchIndex p).length
      if ((cfg.peers self).length + 1) / 2 < matched then { n with commitIndex := i } else n

/-- Advance the commit index over the entries of the current term that a majority has. -/
def Node.updateCommitIndex (cfg : Config N) (self : N) (n : Node N C B) : Node N C B :=
  (List.range' (n.commitIndex + 1) (n.logLen - n.commitIndex)).foldl
    (Node.commitRound cfg self) n

end MxKeys.Raft
