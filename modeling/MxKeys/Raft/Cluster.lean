/-
# MxKeys.Raft.Cluster — the cluster as a system of interleaved critical sections.

A state holds every node, every RPC that was ever sent with how far it has come, and every goroutine
that is between two critical sections.  An action is one critical section (or one call into the
application), so the interleavings of actions are the interleavings of the source's locks.

Messages are never removed from the lists, they only change phase: positions are stable names, and
the lists are also the record of what was ever sent.  Loss and delay are the same thing here, an RPC
that does not progress; each request is handled at most once and each response delivered at most
once, because every RPC has its own connection.

`sendAppendEntries` is started by the heartbeat ticker and by `replicateEntry`; it checks leadership
itself, so the model lets it start at any time for any peer.

The last fields, `votesCast`, `elections` and `applied`, record what happened; no step reads them.
-/
import Mathlib.Data.List.FinRange
import MxKeys.Lib.Run
import MxKeys.Raft.Handlers

namespace MxKeys.Raft

open Function

/-! ## Goroutines and messages -/

/-- A vote round: `votes` and the channel of `runPreVote` and `startElection`.  The grants counted
are kept with the peers that gave them; the source counts them. -/
structure Ballot (N : Type*) where
  term : Nat
  /-- The position of the round's first call. -/
  first : Nat
  /-- The peers whose grants were counted; the node's own vote comes on top. -/
  grants : List N
  /-- Rounds of the collecting loop that are left. -/
  left : Nat
  /-- The channel: responses that were processed and not yet counted. -/
  results : List (N × Bool)

/-- Where the goroutine of `runElectionTimer` is. -/
inductive Timer (N : Type*)
  | waiting
  /-- `shouldStart` was true. -/
  | expired
  | preVote (b : Ballot N)
  /-- `runPreVote` returned true. -/
  | campaign
  | election (b : Ballot N)

/-- How far an RPC has come. -/
inductive Phase (R : Type*)
  | sent
  | answered (r : R)
  | finished

/-- A `RequestVote` RPC, or a `PreVote` RPC if `pre`. -/
structure VoteCall (N : Type*) where
  sender : N
  peer : N
  pre : Bool
  req : RequestVoteRequest N
  phase : Phase RequestVoteResponse

/-- An `AppendEntries` call from its sending on. -/
structure AppendCall (N C : Type*) where
  sender : N
  peer : N
  nextIdx : Nat
  req : AppendEntriesRequest N C
  phase : Phase AppendEntriesResponse

/-- How far a chunk of a snapshot has come. -/
inductive SnapPhase
  /-- The file was read; the term is not sampled yet. -/
  | loaded
  | sent
  /-- The follower has left its first section and runs the installer. -/
  | handling
  | answered (r : InstallSnapshotResponse)
  /-- The last chunk was acknowledged. -/
  | delivered
  | finished

/-- `SendInstallSnapshot` with the chunk it is at. -/
structure SnapCall (N B : Type*) where
  sender : N
  peer : N
  snap : Snapshot B
  term : Nat
  offset : Nat
  phase : SnapPhase

/-- `sendAppendEntries` after its first check. -/
inductive SendTask (N : Type*)
  | append (self peer : N)
  | catchUp (self peer : N)
  | started

/-- How far a `Submit` has come. -/
inductive SubmitPhase (C : Type*)
  | published
  | persisted
  | failed
  /-- In the waiting loop of `replicateEntry`. -/
  | waiting
  /-- `Submit` returned nil. -/
  | acked
  /-- `Submit` returned an error after waiting. -/
  | gaveUp
  /-- `Submit` returned an error after a failed persist, with the entry it took off the log. -/
  | rolledBack (removed : Option (LogEntry C))

/-- A `Submit` that has published its entry. -/
structure SubmitCall (N C : Type*) where
  self : N
  entry : LogEntry C
  publishedLen : Nat
  /-- The forwarded proposal this call works for. -/
  origin : Option Nat
  phase : SubmitPhase C

/-- How far a forwarded proposal has come. -/
inductive ForwardPhase
  | sent
  | submitting
  | answered (ok : Bool)
  | returned (ok : Bool)

/-- `Propose` on a follower. -/
structure ForwardCall (N C : Type*) where
  sender : N
  leader : N
  command : C
  phase : ForwardPhase

/-- The holder of `snapMu` between two of its sections. -/
inductive SnapJob (B : Type*)
  | install (call : Nat) (lastIncludedIndex lastIncludedTerm : Nat) (data : List B)
  | installed (call : Nat) (lastIncludedIndex lastIncludedTerm : Nat) (data : List B)
  | renamed (call : Nat) (lastIncludedIndex lastIncludedTerm : Nat) (data : List B)
  | provided (data : List B) (appliedIdx : Nat)
  | validated (data : List B) (appliedIdx lastTerm : Nat)
  | saved (appliedIdx lastTerm : Nat)

/-- The application's callbacks: `SetOnApply`, `SetSnapshotProvider`, `SetSnapshotInstaller`. -/
structure Callbacks (C B S : Type*) where
  init : S
  onApply : S → LogEntry C → S
  snapshotProvider : S → List B × Nat
  snapshotInstaller : S → List B → Nat → Nat → Option S

/-- The state of the cluster. -/
structure Cluster (N C B S : Type*) where
  node : N → Node N C B
  clock : N → Nat
  app : N → S
  timer : N → Timer N
  applying : N → Option (LogEntry C)
  snapMu : N → Option (SnapJob B)
  votes : List (VoteCall N)
  appends : List (AppendCall N C)
  snaps : List (SnapCall N B)
  sends : List (SendTask N)
  submits : List (SubmitCall N C)
  forwards : List (ForwardCall N C)
  /-- Votes granted so far: voter, term, candidate. -/
  votesCast : List (N × Nat × N)
  /-- Elections won so far. -/
  elections : List (Nat × N)
  /-- Calls of `onApply` so far. -/
  applied : List (N × LogEntry C)

variable {N C B S : Type*} [DecidableEq N]

/-- All nodes freshly started. -/
def Cluster.init (cb : Callbacks C B S) : Cluster N C B S where
  node := fun _ => newNode 0
  clock := fun _ => 0
  app := fun _ => cb.init
  timer := fun _ => .waiting
  applying := fun _ => none
  snapMu := fun _ => none
  votes := []
  appends := []
  snaps := []
  sends := []
  submits := []
  forwards := []
  votesCast := []
  elections := []
  applied := []

/-! ## Elections -/

/-- The number of votes an election needs. -/
def Config.needed (cfg : Config N) (n : N) : Nat := ((cfg.peers n).length + 1) / 2 + 1

/-- One call per peer. -/
def voteCalls (cfg : Config N) (n : N) (pre : Bool) (req : RequestVoteRequest N) :
    List (VoteCall N) :=
  (cfg.peers n).map fun p => ⟨n, p, pre, req, .sent⟩

/-- The request of a node for a term. -/
def Node.voteRequest (x : Node N C B) (self : N) (term : Nat) : RequestVoteRequest N :=
  ⟨term, self, x.lastLogIndexTerm.1, x.lastLogIndexTerm.2⟩

/-- Put a result into the channel of the round that the call belongs to. -/
def Timer.push (t : Timer N) (pre : Bool) (i : Nat) (result : N × Bool) : Timer N :=
  match t, pre with
  | .preVote b, true =>
    if b.first ≤ i then .preVote { b with results := b.results ++ [result] } else t
  | .election b, false =>
    if b.first ≤ i then .election { b with results := b.results ++ [result] } else t
  | t, _ => t

/-- One round of a collecting loop: take a result from the channel, or none after a timeout or a
failed RPC. -/
def Ballot.collect (b : Ballot N) (needed : Nat) (takeResult : Bool) : Option (Ballot N) :=
  if needed ≤ b.grants.length + 1 ∨ b.left = 0 then none
  else
    match takeResult, b.results with
    | false, _ => some { b with left := b.left - 1 }
    | true, [] => none
    | true, (p, granted) :: rest =>
      some { b with
        grants := if granted then p :: b.grants else b.grants
        left := b.left - 1
        results := rest }

namespace Cluster

variable (cfg : Config N) (cb : Callbacks C B S) (s : Cluster N C B S)

/-- Replace the state of one node. -/
def setNode (n : N) (x : Node N C B) : Cluster N C B S :=
  { s with node := update s.node n x }

def setTimer (n : N) (t : Timer N) : Cluster N C B S :=
  { s with timer := update s.timer n t }

def setSnapMu (n : N) (j : Option (SnapJob B)) : Cluster N C B S :=
  { s with snapMu := update s.snapMu n j }

/-- The timer fires: `timeout` is the randomised election timeout. -/
def timerExpire (n : N) (jitter : Nat) : Option (Cluster N C B S) :=
  match s.timer n with
  | .waiting =>
    if (s.node n).state ≠ .leader ∧ jitter < cfg.electionTimeout ∧
        cfg.electionTimeout + jitter ≤ s.clock n - (s.node n).lastContact then
      some (s.setTimer n .expired)
    else none
  | _ => none

/-- The first section of `runPreVote`. -/
def startPreVote (n : N) : Option (Cluster N C B S) :=
  match s.timer n with
  | .expired =>
    let term := (s.node n).currentTerm + 1
    if (cfg.peers n).length = 0 then some (s.setTimer n .campaign)
    else some { s with
      timer := update s.timer n
        (.preVote ⟨term, s.votes.length, [], (cfg.peers n).length, []⟩)
      votes := s.votes ++ voteCalls cfg n true ((s.node n).voteRequest n term) }
  | _ => none

/-- `startElection` up to the first vote. -/
def campaign (n : N) : Option (Cluster N C B S) :=
  match s.timer n with
  | .campaign =>
    let x := startElection n (s.clock n) (s.node n)
    some { s with
      node := update s.node n x
      timer := update s.timer n
        (.election ⟨x.currentTerm, s.votes.length, [], (cfg.peers n).length, []⟩)
      votes := s.votes ++ voteCalls cfg n false (x.voteRequest n x.currentTerm)
      votesCast := (n, x.currentTerm, n) :: s.votesCast }
  | _ => none

/-- The peer handles a vote or pre-vote request. -/
def voteHandle (i : Nat) : Option (Cluster N C B S) :=
  match s.votes[i]? with
  | some ⟨sender, peer, true, req, .sent⟩ =>
    let r := handlePreVote cfg.electionTimeout (s.clock peer) (s.node peer) req
    some { s with votes := s.votes.set i ⟨sender, peer, true, req, .answered r⟩ }
  | some ⟨sender, peer, false, req, .sent⟩ =>
    let (x, r) := handleRequestVote (s.clock peer) (s.node peer) req
    some { s with
      node := update s.node peer x
      votes := s.votes.set i ⟨sender, peer, false, req, .answered r⟩
      votesCast :=
        if r.voteGranted then (peer, x.currentTerm, req.candidateId) :: s.votesCast
        else s.votesCast }
  | _ => none

/-- The sender processes the response. -/
def voteReply (i : Nat) : Option (Cluster N C B S) :=
  match s.votes[i]? with
  | some ⟨sender, peer, true, req, .answered r⟩ =>
    let granted := if req.term < r.term then false else r.voteGranted
    some { s with
      timer := update s.timer sender ((s.timer sender).push true i (peer, granted))
      votes := s.votes.set i ⟨sender, peer, true, req, .finished⟩ }
  | some ⟨sender, peer, false, req, .answered r⟩ =>
    let granted := if (s.node sender).currentTerm < r.term then false else r.voteGranted
    some { s with
      node := update s.node sender ((s.node sender).observeTerm r.term)
      timer := update s.timer sender ((s.timer sender).push false i (peer, granted))
      votes := s.votes.set i ⟨sender, peer, false, req, .finished⟩ }
  | _ => none

/-- The goroutine of a round takes a result. -/
def collect (n : N) (takeResult : Bool) : Option (Cluster N C B S) :=
  match s.timer n with
  | .preVote b => (b.collect (cfg.needed n) takeResult).map fun b => s.setTimer n (.preVote b)
  | .election b => (b.collect (cfg.needed n) takeResult).map fun b => s.setTimer n (.election b)
  | _ => none

/-- The end of a collecting loop.  The winner of an election re-checks that it is still a candidate
of the same term. -/
def finishBallot (n : N) : Option (Cluster N C B S) :=
  match s.timer n with
  | .preVote b =>
    if cfg.needed n ≤ b.grants.length + 1 then some (s.setTimer n .campaign)
    else if b.left = 0 then some (s.setTimer n .waiting)
    else none
  | .election b =>
    if cfg.needed n ≤ b.grants.length + 1 then
      if (s.node n).state = .candidate ∧ (s.node n).currentTerm = b.term then
        some { s with
          node := update s.node n (becomeLeader cfg n (s.node n))
          timer := update s.timer n .waiting
          elections := (b.term, n) :: s.elections }
      else some (s.setTimer n .waiting)
    else if b.left = 0 then some (s.setTimer n .waiting)
    else none
  | _ => none

/-! ## Replication -/

/-- `sendAppendEntries` starts and decides how to catch the peer up. -/
def sendStart (n peer : N) : Option (Cluster N C B S) :=
  if peer ∈ cfg.peers n then
    some { s with sends := s.sends ++
      [if needsSnapshotCatchUp (s.node n) peer then .catchUp n peer else .append n peer] }
  else none

/-- `appendEntriesSnapshot`; the request goes out. -/
def sendAppend (i : Nat) : Option (Cluster N C B S) :=
  match s.sends[i]? with
  | some (.append n peer) =>
    let s := { s with sends := s.sends.set i .started }
    match appendEntriesSnapshot cfg n (s.node n) peer with
    | some (req, nextIdx) =>
      some { s with appends := s.appends ++ [⟨n, peer, nextIdx, req, .sent⟩] }
    | none => some s
  | _ => none

/-- The peer handles an `AppendEntries`. -/
def appendHandle (i : Nat) (io : AppendIo) : Option (Cluster N C B S) :=
  match s.appends[i]? with
  | some ⟨sender, peer, nextIdx, req, .sent⟩ =>
    let (x, r) := handleAppendEntries cfg peer (s.clock peer) io (s.node peer) req
    some { s with
      node := update s.node peer x
      appends := s.appends.set i ⟨sender, peer, nextIdx, req, .answered r⟩ }
  | _ => none

/-- The sender handles the answer. -/
def appendReply (i : Nat) : Option (Cluster N C B S) :=
  match s.appends[i]? with
  | some ⟨sender, peer, nextIdx, req, .answered r⟩ =>
    some { s with
      node := update s.node sender
        (appendEntriesReply cfg sender (s.node sender) peer req nextIdx r)
      appends := s.appends.set i ⟨sender, peer, nextIdx, req, .finished⟩ }
  | _ => none

/-! ## Installing snapshots -/

/-- `SendInstallSnapshot` reads the snapshot file. -/
def loadSnapshot (i : Nat) : Option (Cluster N C B S) :=
  match s.sends[i]? with
  | some (.catchUp n peer) =>
    let s := { s with sends := s.sends.set i .started }
    match cfg.stateDir n, (s.node n).snapshotFile with
    | true, some snap => some { s with snaps := s.snaps ++ [⟨n, peer, snap, 0, 0, .loaded⟩] }
    | _, _ => some s
  | _ => none

/-- It samples the current term, of whatever state the node is in by now. -/
def sampleTerm (i : Nat) : Option (Cluster N C B S) :=
  match s.snaps[i]? with
  | some ⟨n, peer, snap, _, offset, .loaded⟩ =>
    some { s with
      snaps := s.snaps.set i ⟨n, peer, snap, (s.node n).currentTerm, offset, .sent⟩ }
  | _ => none

/-- The follower takes `snapMu` and handles the chunk. -/
def chunkHandle (i : Nat) (io : ChunkIo) : Option (Cluster N C B S) :=
  match s.snaps[i]? with
  | some ⟨n, peer, snap, term, offset, .sent⟩ =>
    match s.snapMu peer with
    | some _ => none
    | none =>
      match handleInstallSnapshot cfg peer (s.clock peer) io (s.node peer)
          (snapshotChunk cfg n snap term offset) with
      | (x, .reply r) =>
        some { s with
          node := update s.node peer x
          snaps := s.snaps.set i ⟨n, peer, snap, term, offset, .answered r⟩ }
      | (x, .install data) =>
        some { s with
          node := update s.node peer x
          snapMu := update s.snapMu peer
            (some (.install i snap.lastIncludedIndex snap.lastIncludedTerm data))
          snaps := s.snaps.set i ⟨n, peer, snap, term, offset, .handling⟩ }
  | _ => none

/-- Answer the chunk that a node is handling and release `snapMu`. -/
def answerChunk (n : N) (i : Nat) (r : InstallSnapshotResponse) : Cluster N C B S :=
  { s with
    snapMu := update s.snapMu n none
    snaps := match s.snaps[i]? with
      | some c => s.snaps.set i { c with phase := .answered r }
      | none => s.snaps }

/-- The installer runs, outside `n.mu`. -/
def runInstaller (n : N) : Option (Cluster N C B S) :=
  match s.snapMu n with
  | some (.install i index term data) =>
    match cb.snapshotInstaller (s.app n) data index term with
    | some a =>
      some { s with
        snapMu := update s.snapMu n (some (.installed i index term data))
        app := update s.app n a }
    | none => some (s.answerChunk n i ⟨(s.node n).currentTerm, false, 0⟩)
  | _ => none

/-- The spill file is renamed into place. -/
def renameSnapshot (n : N) (ok : Bool) : Option (Cluster N C B S) :=
  match s.snapMu n with
  | some (.installed i index term data) =>
    if cfg.diskOk n ok then
      let file := if cfg.stateDir n then some ⟨index, term, data⟩ else (s.node n).snapshotFile
      some ((s.setNode n ((s.node n).setSnapshotFile file)).setSnapMu n
        (some (.renamed i index term data)))
    else some (s.answerChunk n i ⟨(s.node n).currentTerm, false, 0⟩)
  | _ => none

/-- The last section of `handleInstallSnapshot`, and the truncation of the write-ahead log. -/
def installEnd (n : N) (walOk : Bool) : Option (Cluster N C B S) :=
  match s.snapMu n with
  | some (.renamed i index term data) =>
    let x := finishInstall (s.node n) index term
    let x' := if walOk then x.walTruncateBefore (index + 1) else x
    some ((s.setNode n x').answerChunk n i ⟨x.currentTerm, true, data.length⟩)
  | _ => none

/-- The sender processes the response to a chunk and goes on to the next one. -/
def chunkReply (i : Nat) : Option (Cluster N C B S) :=
  match s.snaps[i]? with
  | some ⟨n, peer, snap, term, offset, .answered r⟩ =>
    let next := offset + snapshotChunkSize
    some { s with
      node := update s.node n ((s.node n).observeTerm r.term)
      snaps := s.snaps.set i
        (if !r.success then ⟨n, peer, snap, term, offset, .finished⟩
        else if snap.data.length ≤ next then ⟨n, peer, snap, term, offset, .delivered⟩
        else ⟨n, peer, snap, term, next, .sent⟩) }
  | _ => none

/-- The last section of `SendInstallSnapshot`. -/
def snapshotDone (i : Nat) : Option (Cluster N C B S) :=
  match s.snaps[i]? with
  | some ⟨n, peer, snap, term, offset, .delivered⟩ =>
    some { s with
      node := update s.node n (snapshotSent (s.node n) peer snap.lastIncludedIndex)
      snaps := s.snaps.set i ⟨n, peer, snap, term, offset, .finished⟩ }
  | _ => none

/-! ## Compaction -/

/-- `CompactLog` takes `snapMu` and calls the provider. -/
def compactStart (n : N) : Option (Cluster N C B S) :=
  match s.snapMu n, cfg.stateDir n with
  | none, true =>
    let (data, appliedIdx) := cb.snapshotProvider (s.app n)
    some (s.setSnapMu n (some (.provided data appliedIdx)))
  | _, _ => none

/-- `CompactLog` checks what the provider returned. -/
def compactCheck (n : N) : Option (Cluster N C B S) :=
  match s.snapMu n with
  | some (.provided data appliedIdx) =>
    some (s.setSnapMu n
      ((compactValidate (s.node n) appliedIdx).map fun term => .validated data appliedIdx term))
  | _ => none

/-- `SaveSnapshot`. -/
def compactSave (n : N) (ok : Bool) : Option (Cluster N C B S) :=
  match s.snapMu n with
  | some (.validated data appliedIdx term) =>
    if ok then
      some ((s.setNode n ((s.node n).setSnapshotFile (some ⟨appliedIdx, term, data⟩))).setSnapMu n
        (some (.saved appliedIdx term)))
    else some (s.setSnapMu n none)
  | _ => none

/-- `CompactLog` cuts the log. -/
def compactEnd (n : N) (walOk : Bool) : Option (Cluster N C B S) :=
  match s.snapMu n with
  | some (.saved appliedIdx term) =>
    let x := compactFinish (s.node n) appliedIdx term
    let x' := if walOk then x.walTruncateBefore (appliedIdx + 1) else x
    some ((s.setNode n x').setSnapMu n none)
  | _ => none

/-! ## Submit and Propose -/

/-- `Submit` publishes; on a node that is not the leader it returns `ErrNotLeader`. -/
def submit (n : N) (command : C) (origin : Option Nat) : Option (Cluster N C B S) :=
  match submitPublish (s.node n) command with
  | some (x, entry, publishedLen) =>
    some { s with
      node := update s.node n x
      submits := s.submits ++ [⟨n, entry, publishedLen, origin, .published⟩] }
  | none => none

/-- `Propose`: submit, forward to the known leader, or `ErrNoLeader`. -/
def propose (n : N) (command : C) : Option (Cluster N C B S) :=
  if (s.node n).state = .leader then s.submit n command none
  else
    match (s.node n).leaderAddr with
    | some leader => some { s with forwards := s.forwards ++ [⟨n, leader, command, .sent⟩] }
    | none => none

/-- Set the verdict of a forwarded proposal. -/
def setForward (i : Nat) (phase : ForwardPhase) : Cluster N C B S :=
  { s with forwards := match s.forwards[i]? with
      | some f => s.forwards.set i { f with phase := phase }
      | none => s.forwards }

/-- `handleForwardProposal`. -/
def forwardHandle (i : Nat) : Option (Cluster N C B S) :=
  match s.forwards[i]? with
  | some ⟨_, leader, command, .sent⟩ =>
    if (s.node leader).state = .leader then
      (s.setForward i .submitting).submit leader command (some i)
    else some (s.setForward i (.answered false))
  | _ => none

/-- The forwarding `Propose` returns. -/
def forwardReply (i : Nat) : Option (Cluster N C B S) :=
  match s.forwards[i]? with
  | some ⟨_, _, _, .answered ok⟩ => some (s.setForward i (.returned ok))
  | _ => none

/-- Move a `Submit` on, and answer the proposal it works for once it has a verdict. -/
def setSubmit (k : Nat) (c : SubmitCall N C) (phase : SubmitPhase C)
    (verdict : Option Bool) : Cluster N C B S :=
  let s := { s with submits := s.submits.set k { c with phase := phase } }
  match c.origin, verdict with
  | some i, some ok => s.setForward i (.answered ok)
  | _, _ => s

/-- The write to the write-ahead log, outside `n.mu`. -/
def submitPersist (k : Nat) (ok : Bool) : Option (Cluster N C B S) :=
  match s.submits[k]? with
  | some ⟨n, entry, len, origin, .published⟩ =>
    let c : SubmitCall N C := ⟨n, entry, len, origin, .published⟩
    if cfg.diskOk n ok then
      some ((s.setNode n ((s.node n).persistEntry entry)).setSubmit k c .persisted none)
    else some (s.setSubmit k c .failed none)
  | _ => none

/-- The section after a successful write: `updateCommitIndex`, whatever the node is by now. -/
def submitCommit (k : Nat) : Option (Cluster N C B S) :=
  match s.submits[k]? with
  | some ⟨n, entry, len, origin, .persisted⟩ =>
    some ((s.setNode n (Node.updateCommitIndex cfg n (s.node n))).setSubmit k
      ⟨n, entry, len, origin, .persisted⟩ .waiting none)
  | _ => none

/-- The section after a failed write. -/
def submitFail (k : Nat) : Option (Cluster N C B S) :=
  match s.submits[k]? with
  | some ⟨n, entry, len, origin, .failed⟩ =>
    some ((s.setNode n (submitRollback (s.node n) entry len)).setSubmit k
      ⟨n, entry, len, origin, .failed⟩ (.rolledBack ((s.node n).rolledBackEntry entry len))
      (some false))
  | _ => none

/-- `replicateEntry` sees the commit index reach the entry's index: `Submit` returns nil. -/
def submitReturn (k : Nat) : Option (Cluster N C B S) :=
  match s.submits[k]? with
  | some ⟨n, entry, len, origin, .waiting⟩ =>
    if entry.index ≤ (s.node n).commitIndex then
      some (s.setSubmit k ⟨n, entry, len, origin, .waiting⟩ .acked (some true))
    else none
  | _ => none

/-- Deadline or cancellation while waiting. -/
def submitGiveUp (k : Nat) : Option (Cluster N C B S) :=
  match s.submits[k]? with
  | some ⟨n, entry, len, origin, .waiting⟩ =>
    some (s.setSubmit k ⟨n, entry, len, origin, .waiting⟩ .gaveUp (some false))
  | _ => none

/-! ## Applying -/

/-- `applyLoop` takes the next entry. -/
def applyTake (n : N) : Option (Cluster N C B S) :=
  match s.applying n, applyNext (s.node n) with
  | none, some (x, entry) =>
    some { s with
      node := update s.node n x
      applying := update s.applying n entry }
  | _, _ => none

/-- `onApply`, outside `n.mu`. -/
def applyRun (n : N) : Option (Cluster N C B S) :=
  match s.applying n with
  | some entry =>
    some { s with
      app := update s.app n (cb.onApply (s.app n) entry)
      applying := update s.applying n none
      applied := (n, entry) :: s.applied }
  | none => none

end Cluster

/-! ## Steps -/

/-- What can happen next. -/
inductive Action (N C : Type*)
  | tick (n : N) (d : Nat)
  | timerExpire (n : N) (jitter : Nat)
  | startPreVote (n : N)
  | campaign (n : N)
  | voteHandle (i : Nat)
  | voteReply (i : Nat)
  | collect (n : N) (takeResult : Bool)
  | finishBallot (n : N)
  | sendStart (n peer : N)
  | sendAppend (i : Nat)
  | appendHandle (i : Nat) (io : AppendIo)
  | appendReply (i : Nat)
  | loadSnapshot (i : Nat)
  | sampleTerm (i : Nat)
  | chunkHandle (i : Nat) (io : ChunkIo)
  | runInstaller (n : N)
  | renameSnapshot (n : N) (ok : Bool)
  | installEnd (n : N) (walOk : Bool)
  | chunkReply (i : Nat)
  | snapshotDone (i : Nat)
  | compactStart (n : N)
  | compactCheck (n : N)
  | compactSave (n : N) (ok : Bool)
  | compactEnd (n : N) (walOk : Bool)
  | submit (n : N) (command : C)
  | propose (n : N) (command : C)
  | forwardHandle (i : Nat)
  | forwardReply (i : Nat)
  | submitPersist (k : Nat) (ok : Bool)
  | submitCommit (k : Nat)
  | submitFail (k : Nat)
  | submitReturn (k : Nat)
  | submitGiveUp (k : Nat)
  | applyTake (n : N)
  | applyRun (n : N)

/-- One step of the cluster; `none` if the action is not enabled. -/
def step (cfg : Config N) (cb : Callbacks C B S) (s : Cluster N C B S) :
    Action N C → Option (Cluster N C B S)
  | .tick n d => some { s with clock := update s.clock n (s.clock n + d) }
  | .timerExpire n jitter => s.timerExpire cfg n jitter
  | .startPreVote n => s.startPreVote cfg n
  | .campaign n => s.campaign cfg n
  | .voteHandle i => s.voteHandle cfg i
  | .voteReply i => s.voteReply i
  | .collect n takeResult => s.collect cfg n takeResult
  | .finishBallot n => s.finishBallot cfg n
  | .sendStart n peer => s.sendStart cfg n peer
  | .sendAppend i => s.sendAppend cfg i
  | .appendHandle i io => s.appendHandle cfg i io
  | .appendReply i => s.appendReply cfg i
  | .loadSnapshot i => s.loadSnapshot cfg i
  | .sampleTerm i => s.sampleTerm i
  | .chunkHandle i io => s.chunkHandle cfg i io
  | .runInstaller n => s.runInstaller cb n
  | .renameSnapshot n ok => s.renameSnapshot cfg n ok
  | .installEnd n walOk => s.installEnd n walOk
  | .chunkReply i => s.chunkReply i
  | .snapshotDone i => s.snapshotDone i
  | .compactStart n => s.compactStart cfg cb n
  | .compactCheck n => s.compactCheck n
  | .compactSave n ok => s.compactSave n ok
  | .compactEnd n walOk => s.compactEnd n walOk
  | .submit n command => s.submit n command none
  | .propose n command => s.propose n command
  | .forwardHandle i => s.forwardHandle i
  | .forwardReply i => s.forwardReply i
  | .submitPersist k ok => s.submitPersist cfg k ok
  | .submitCommit k => s.submitCommit cfg k
  | .submitFail k => s.submitFail k
  | .submitReturn k => s.submitReturn k
  | .submitGiveUp k => s.submitGiveUp k
  | .applyTake n => s.applyTake n
  | .applyRun n => s.applyRun cb n

/-! ## Clusters and schedules to run -/

/-- The cluster of `k` nodes in which every node lists all the others. -/
def Config.complete (k electionTimeout : Nat) : Config (Fin k) where
  peers := fun n => (List.finRange k).filter (· ≠ n)
  peers_nodup := fun _ => (List.nodup_finRange k).filter _
  mem_peers := fun n m => by simp
  electionTimeout := electionTimeout
  advertiseAddr := some
  stateDir := fun _ => true
  hasInstaller := fun _ => true

/-- An application without state. -/
def Callbacks.stateless : Callbacks C B Unit where
  init := ()
  onApply := fun _ _ => ()
  snapshotProvider := fun _ => ([], 0)
  snapshotInstaller := fun _ _ _ _ => some ()

/-- An application that remembers the last index it was given, with snapshots that carry nothing
else. -/
def Callbacks.lastIndex : Callbacks C B Nat where
  init := 0
  onApply := fun _ e => e.index
  snapshotProvider := fun i => ([], i)
  snapshotInstaller := fun _ _ index _ => some index

/-- All writes succeed. -/
def AppendIo.ok : AppendIo := ⟨[], []⟩

def ChunkIo.ok : ChunkIo := ⟨true, true, true⟩

/-- A vote round from the first request to the last counted response, over the given calls. -/
def voteRound (n : N) (calls : List Nat) : List (Action N C) :=
  calls.flatMap fun i => [.voteHandle i, .voteReply i, .collect n true]

/-- Everybody waits out the election timeout `d`, then node `n` campaigns: pre-votes over the calls
`pre`, votes over the calls `real`. -/
def electionSchedule (everybody : List N) (d : Nat) (n : N) (pre real : List Nat) :
    List (Action N C) :=
  everybody.map (fun m => .tick m d) ++ [.timerExpire n 0, .startPreVote n] ++ voteRound n pre ++
    [.finishBallot n, .campaign n] ++ voteRound n real ++ [.finishBallot n]

/-- One round of `AppendEntries` from `n` to `peer`: the task and the call have the given
positions. -/
def appendSchedule (n peer : N) (task call : Nat) : List (Action N C) :=
  [.sendStart n peer, .sendAppend task, .appendHandle call .ok, .appendReply call]

end MxKeys.Raft
