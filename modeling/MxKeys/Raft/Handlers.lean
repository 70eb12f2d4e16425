/-
# MxKeys.Raft.Handlers — the RPC handlers and the leader's critical sections.

One function per section that the source runs under `n.mu`, in the order of its statements.  A
handler returns the node after the call and the response.  `now` is the node's clock; the outcome of
every write to disk is an argument, so that a caller can make any of them fail.

`handleInstallSnapshot` is the one handler that leaves the lock: its first section either answers or
hands the received bytes on to the installer (`ChunkResult.install`), and `finishInstall` is the
section that runs after the installer.
-/
import MxKeys.Raft.Node

namespace MxKeys.Raft

variable {N C B : Type*}

/-! ## Messages -/

/-- `RequestVoteRequest`, and `PreVoteRequest`, which has the same fields. -/
structure RequestVoteRequest (N : Type*) where
  term : Nat
  candidateId : N
  lastLogIndex : Nat
  lastLogTerm : Nat

/-- `RequestVoteResponse`. -/
structure RequestVoteResponse where
  term : Nat
  voteGranted : Bool

/-- `AppendEntriesRequest`. -/
structure AppendEntriesRequest (N C : Type*) where
  term : Nat
  leaderId : N
  leaderAddress : Option N
  prevLogIndex : Nat
  prevLogTerm : Nat
  entries : List (LogEntry C)
  leaderCommit : Nat

/-- `AppendEntriesResponse`. -/
structure AppendEntriesResponse where
  term : Nat
  success : Bool

/-- `InstallSnapshotRequest`. -/
structure InstallSnapshotRequest (N B : Type*) where
  term : Nat
  leaderID : N
  leaderAddress : Option N
  lastIncludedIndex : Nat
  lastIncludedTerm : Nat
  offset : Nat
  done : Bool
  data : List B

/-- `InstallSnapshotResponse`. -/
structure InstallSnapshotResponse where
  term : Nat
  success : Bool
  bytesStored : Nat

/-! ## Terms and votes -/

/-- A message carried a higher term: adopt it and step down.  The same statements stand in
`handleRequestVote`, `requestVote`, `sendAppendEntries` and `exchangeSnapshotChunk`. -/
def Node.observeTerm (n : Node N C B) (term : Nat) : Node N C B :=
  if n.currentTerm < term then
    { n with currentTerm := term, state := .follower, votedFor := none }
  else n

/-- Answers a pre-vote probe; nothing is written. -/
def handlePreVote (electionTimeout now : Nat) (n : Node N C B) (req : RequestVoteRequest N) :
    RequestVoteResponse :=
  if req.term < n.currentTerm then ⟨n.currentTerm, false⟩
  else if now - n.lastContact < electionTimeout ∧ n.leaderId.isSome then ⟨n.currentTerm, false⟩
  else ⟨n.currentTerm, n.isLogUpToDate req.lastLogIndex req.lastLogTerm⟩

/-- `handleRequestVote`. -/
def handleRequestVote [DecidableEq N] (now : Nat) (n : Node N C B) (req : RequestVoteRequest N) :
    Node N C B × RequestVoteResponse :=
  if req.term < n.currentTerm then (n, ⟨n.currentTerm, false⟩)
  else
    let n := n.observeTerm req.term
    if (n.votedFor = none ∨ n.votedFor = some req.candidateId) ∧
        n.isLogUpToDate req.lastLogIndex req.lastLogTerm then
      ({ n with votedFor := some req.candidateId, lastContact := now }, ⟨n.currentTerm, true⟩)
    else (n, ⟨n.currentTerm, false⟩)

/-- The first critical section of `startElection`. -/
def startElection (self : N) (now : Nat) (n : Node N C B) : Node N C B :=
  { n with
    currentTerm := n.currentTerm + 1
    state := .candidate
    votedFor := some self
    lastContact := now }

/-- `becomeLeader`.  `nextIndex` and `matchIndex` are set for every peer. -/
def becomeLeader [DecidableEq N] (cfg : Config N) (self : N) (n : Node N C B) : Node N C B :=
  { n with
    state := .leader
    leaderId := some self
    nextIndex := fun p => if p ∈ cfg.peers self then n.logLen + 1 else n.nextIndex p
    matchIndex := fun p => if p ∈ cfg.peers self then 0 else n.matchIndex p }

/-! ## Appending entries -/

/-- A leader speaks: what `handleAppendEntries` and `handleInstallSnapshot` do to term, state and
leader once the request is not stale. -/
def Node.hearLeader (n : Node N C B) (now term : Nat) (leader : N) (address : Option N) :
    Node N C B :=
  { n with
    currentTerm := if n.currentTerm < term then term else n.currentTerm
    votedFor := if n.currentTerm < term then none else n.votedFor
    state := .follower
    leaderId := some leader
    leaderAddr := address.orElse fun _ => n.leaderAddr
    lastContact := now }

/-- The disk writes of one `handleAppendEntries` that fail, by position in `Entries`. -/
structure AppendIo where
  truncateFails : List Nat
  persistFails : List Nat
  deriving DecidableEq

def AppendIo.truncate (io : AppendIo) (i : Nat) : Bool := !io.truncateFails.contains i

def AppendIo.persist (io : AppendIo) (i : Nat) : Bool := !io.persistFails.contains i

/-- Persist one entry and append it to the in-memory log. -/
def Node.appendEntry (n : Node N C B) (entry : LogEntry C) (ok : Bool) : Node N C B × Bool :=
  if ok then ((n.persistEntry entry).pushEntry entry, true) else (n, false)

/-- One entry of the loop: the node afterwards, and whether the loop goes on. -/
def Node.takeEntry (n : Node N C B) (idx : Nat) (entry : LogEntry C) (truncateOk persistOk : Bool) :
    Node N C B × Bool :=
  match n.entryAt idx with
  | some existing =>
    if existing.term ≠ entry.term then
      let n := n.truncateSliceAfter (idx - 1)
      if truncateOk then (n.walTruncateAfter (idx - 1)).appendEntry entry persistOk
      else (n, false)
    else (n, true)
  | none => if n.logLen < idx then n.appendEntry entry persistOk else (n, true)

/-- The loop over `req.Entries`, from position `i` on. -/
def Node.takeEntries (n : Node N C B) (prevLogIndex i : Nat) (truncateOk persistOk : Nat → Bool) :
    List (LogEntry C) → Node N C B × Bool
  | [] => (n, true)
  | entry :: rest =>
    match n.takeEntry (prevLogIndex + i + 1) entry (truncateOk i) (persistOk i) with
    | (n', true) => n'.takeEntries prevLogIndex (i + 1) truncateOk persistOk rest
    | (n', false) => (n', false)

/-- "Check log consistency": the entry before the new ones is there, with the right term. -/
def Node.prevMatches (n : Node N C B) (prevLogIndex prevLogTerm : Nat) : Bool :=
  prevLogIndex == 0 || n.termAt prevLogIndex == some prevLogTerm

/-- "Update commit index": to the leader's, but not past the last new entry. -/
def Node.followCommit (n : Node N C B) (leaderCommit lastNew : Nat) : Node N C B :=
  if n.commitIndex < leaderCommit then
    { n with commitIndex := if leaderCommit < lastNew then leaderCommit else lastNew }
  else n

/-- `handleAppendEntries`. -/
def handleAppendEntries (cfg : Config N) (self : N) (now : Nat) (io : AppendIo) (n : Node N C B)
    (req : AppendEntriesRequest N C) : Node N C B × AppendEntriesResponse :=
  if req.term < n.currentTerm then (n, ⟨n.currentTerm, false⟩)
  else
    -- failures below answer with the term the node had when the request came in
    let before := n.currentTerm
    let n := n.hearLeader now req.term req.leaderId req.leaderAddress
    if !n.prevMatches req.prevLogIndex req.prevLogTerm then (n, ⟨before, false⟩)
    else
      match n.takeEntries req.prevLogIndex 0 (fun i => cfg.diskOk self (io.truncate i))
          (fun i => cfg.diskOk self (io.persist i)) req.entries with
      | (n, false) => (n, ⟨before, false⟩)
      | (n, true) =>
        let n := n.followCommit req.leaderCommit (req.prevLogIndex + req.entries.length)
        (n, ⟨n.currentTerm, true⟩)

/-! ## The leader's side of replication -/

/-- `needsSnapshotCatchUp`.  A peer is absent from `nextIndex` exactly when its value is `0`. -/
def needsSnapshotCatchUp (n : Node N C B) (peer : N) : Bool :=
  decide (n.state = .leader) && n.snapshotIndex != 0 && n.nextIndex peer != 0 &&
    decide (n.nextIndex peer ≤ n.snapshotIndex)

/-- `appendEntriesSnapshot` and the request built from it, with the `nextIdx` it was taken at. -/
def appendEntriesSnapshot (cfg : Config N) (self : N) (n : Node N C B) (peer : N) :
    Option (AppendEntriesRequest N C × Nat) :=
  if n.state = .leader then
    let nextIdx := n.nextIndex peer
    let prevLogIndex := nextIdx - 1
    some ({
      term := n.currentTerm
      leaderId := self
      leaderAddress := cfg.advertiseAddr self
      prevLogIndex := prevLogIndex
      prevLogTerm := if 0 < prevLogIndex then (n.termAt prevLogIndex).getD 0 else 0
      entries := match n.sliceIndex nextIdx with
        | some slot => n.log.drop slot
        | none => []
      leaderCommit := n.commitIndex }, nextIdx)
  else none

/-- What `sendAppendEntries` does with the response. -/
def appendEntriesReply [DecidableEq N] (cfg : Config N) (self : N) (n : Node N C B) (peer : N)
    (req : AppendEntriesRequest N C) (nextIdx : Nat) (resp : AppendEntriesResponse) : Node N C B :=
  if n.currentTerm < resp.term then n.observeTerm resp.term
  else if n.state ≠ .leader ∨ n.currentTerm ≠ req.term ∨ n.nextIndex peer ≠ nextIdx then n
  else if resp.success then
    Node.updateCommitIndex cfg self { n with
      nextIndex := Function.update n.nextIndex peer (nextIdx + req.entries.length)
      matchIndex := Function.update n.matchIndex peer (nextIdx + req.entries.length - 1) }
  else if 1 < n.nextIndex peer then
    { n with nextIndex := Function.update n.nextIndex peer (n.nextIndex peer - 1) }
  else n

/-! ## Submit -/

/-- The first critical section of `Submit`: reserve the next index and publish the entry.  Returns
the entry and `publishedLen`. -/
def submitPublish (n : Node N C B) (command : C) : Option (Node N C B × LogEntry C × Nat) :=
  if n.state = .leader then
    let entry : LogEntry C := ⟨n.logLen + 1, n.currentTerm, command⟩
    some (n.pushEntry entry, entry, n.log.length + 1)
  else none

/-- Whether the failed `Submit` finds an entry at its index on top of the log it left. -/
def Node.rollsBack (n : Node N C B) (entry : LogEntry C) (publishedLen : Nat) : Bool :=
  decide (n.log.length = publishedLen) &&
    match n.log.getLast? with
    | some last => decide (last.index = entry.index)
    | none => false

/-- The entry that the failed `Submit` takes off the log. -/
def Node.rolledBackEntry (n : Node N C B) (entry : LogEntry C) (publishedLen : Nat) :
    Option (LogEntry C) :=
  if n.rollsBack entry publishedLen then n.log.getLast? else none

/-- The critical section after a failed persist. -/
def submitRollback (n : Node N C B) (entry : LogEntry C) (publishedLen : Nat) : Node N C B :=
  if n.rollsBack entry publishedLen then { n with log := n.log.dropLast } else n

/-! ## Applying -/

/-- `n.lastApplied++`. -/
def Node.bumpApplied (n : Node N C B) : Node N C B := { n with lastApplied := n.lastApplied + 1 }

/-- One round of `applyLoop` under the lock: the next index is taken, with its entry if it is in the
in-memory window. -/
def applyNext (n : Node N C B) : Option (Node N C B × Option (LogEntry C)) :=
  if n.lastApplied < n.commitIndex then
    some (n.bumpApplied, n.entryAt (n.lastApplied + 1))
  else none

/-! ## Snapshots -/

/-- `maxSnapshotSize`. -/
def maxSnapshotSize : Nat := 256 * 1024 * 1024

/-- `snapshotChunkSize`. -/
def snapshotChunkSize : Nat := 512 * 1024

/-- Outcomes of the disk writes of one chunk. -/
structure ChunkIo where
  begin : Bool
  append : Bool
  finalize : Bool
  deriving DecidableEq

/-- What the first section of `handleInstallSnapshot` decides. -/
inductive ChunkResult (B : Type*)
  | reply (r : InstallSnapshotResponse)
  /-- All bytes are there: run the installer on them. -/
  | install (data : List B)

/-- `newTransfer`: the chunk does not continue the transfer under way. -/
def Node.newTransfer (n : Node N C B) (req : InstallSnapshotRequest N B) : Bool :=
  req.offset == 0 || req.lastIncludedIndex != n.pending.index ||
    req.lastIncludedTerm != n.pending.term

/-- The transfer that the chunk belongs to, without its bytes. -/
def Node.transferFor (n : Node N C B) (req : InstallSnapshotRequest N B) : PendingSnapshot B :=
  if n.newTransfer req then ⟨req.lastIncludedIndex, req.lastIncludedTerm, []⟩ else n.pending

/-- The part of the first section that follows the checks on term, installer and index. -/
def receiveChunk (cfg : Config N) (self : N) (io : ChunkIo) (n : Node N C B)
    (req : InstallSnapshotRequest N B) : Node N C B × ChunkResult B :=
  if n.newTransfer req && !cfg.diskOk self io.begin then
    ({ n with pending := ⟨req.lastIncludedIndex, req.lastIncludedTerm, []⟩ },
      .reply ⟨n.currentTerm, false, 0⟩)
  else
    let pending := n.transferFor req
    if req.offset ≠ pending.data.length then
      ({ n with pending := .none }, .reply ⟨n.currentTerm, false, 0⟩)
    else if maxSnapshotSize < pending.data.length + req.data.length ∨
        !cfg.diskOk self io.append then
      ({ n with pending := .none }, .reply ⟨n.currentTerm, false, 0⟩)
    else
      let data := pending.data ++ req.data
      if !req.done then
        ({ n with pending := ⟨pending.index, pending.term, data⟩ },
          .reply ⟨n.currentTerm, true, data.length⟩)
      else if !cfg.diskOk self io.finalize then
        ({ n with pending := .none }, .reply ⟨n.currentTerm, false, 0⟩)
      else ({ n with pending := .none }, .install data)

/-- The first section of `handleInstallSnapshot`. -/
def handleInstallSnapshot (cfg : Config N) (self : N) (now : Nat) (io : ChunkIo) (n : Node N C B)
    (req : InstallSnapshotRequest N B) : Node N C B × ChunkResult B :=
  if req.term < n.currentTerm then (n, .reply ⟨n.currentTerm, false, 0⟩)
  else if !cfg.hasInstaller self then (n, .reply ⟨n.currentTerm, false, 0⟩)
  else
    let n := n.hearLeader now req.term req.leaderID req.leaderAddress
    if req.lastIncludedIndex ≤ n.snapshotIndex ∧ 0 < n.snapshotIndex then
      (n, .reply ⟨n.currentTerm, true, 0⟩)
    else receiveChunk cfg self io n req

/-- The section after the installer: the snapshot is in place, the log keeps what lies above it. -/
def finishInstall (n : Node N C B) (lastIncludedIndex lastIncludedTerm : Nat) : Node N C B :=
  { n with
    snapshotIndex := lastIncludedIndex
    snapshotTerm := lastIncludedTerm
    commitIndex := max n.commitIndex lastIncludedIndex
    lastApplied := max n.lastApplied lastIncludedIndex
    log := n.log.filter fun e => lastIncludedIndex < e.index
    logOffset := max n.logOffset lastIncludedIndex }

/-- The checks of `CompactLog` on the index the provider reported; the term of its entry. -/
def compactValidate (n : Node N C B) (appliedIdx : Nat) : Option Nat :=
  if appliedIdx = 0 ∨ appliedIdx ≤ n.snapshotIndex ∨ n.commitIndex < appliedIdx then none
  else n.termAt appliedIdx

/-- The last critical section of `CompactLog`. -/
def compactFinish (n : Node N C B) (appliedIdx lastTerm : Nat) : Node N C B :=
  if appliedIdx ≤ n.snapshotIndex then n
  else
    let drop := (offsetToSlot (appliedIdx + 1) n.logOffset n.log.length).getD n.log.length
    { n with
      log := if n.logOffset < appliedIdx then n.log.drop drop else n.log
      logOffset := appliedIdx
      snapshotIndex := appliedIdx
      snapshotTerm := lastTerm }

/-- The next chunk of a snapshot, from `offset` on; an empty snapshot is one empty chunk. -/
def snapshotChunk (cfg : Config N) (self : N) (snap : Snapshot B) (term offset : Nat) :
    InstallSnapshotRequest N B where
  term := term
  leaderID := self
  leaderAddress := cfg.advertiseAddr self
  lastIncludedIndex := snap.lastIncludedIndex
  lastIncludedTerm := snap.lastIncludedTerm
  offset := offset
  done := decide (snap.data.length ≤ offset + snapshotChunkSize)
  data := (snap.data.drop offset).take snapshotChunkSize

/-- The last section of `SendInstallSnapshot`. -/
def snapshotSent [DecidableEq N] (n : Node N C B) (peer : N) (lastIncludedIndex : Nat) :
    Node N C B :=
  { n with
    nextIndex := Function.update n.nextIndex peer (lastIncludedIndex + 1)
    matchIndex := Function.update n.matchIndex peer lastIncludedIndex }

end MxKeys.Raft
