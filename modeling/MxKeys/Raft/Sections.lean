/-
# MxKeys.Raft.Sections — every step of the cluster is a section of one node.

`step_node` turns the step function around from the node's side: a step leaves all nodes alone, or
it runs one section of the source on one node, and `Section` lists which sections there are and what
was there when they ran.  An invariant of single nodes is then a case analysis over sections, not
over the actions of the cluster.
-/
import MxKeys.Raft.Steps

namespace MxKeys.Raft

open Function

variable {N C B S : Type*} [DecidableEq N]

/-- `Section cfg s a n x`: the action `a` runs a section of the source on node `n`, and `x` is the
node afterwards. -/
inductive Section (cfg : Config N) (s : Cluster N C B S) : Action N C → N → Node N C B → Prop
  | campaign (n : N) : Section cfg s (.campaign n) n (startElection n (s.clock n) (s.node n))
  | requestVote {i : Nat} {sender peer : N} {req : RequestVoteRequest N}
      (hi : s.votes[i]? = some ⟨sender, peer, false, req, .sent⟩) :
      Section cfg s (.voteHandle i) peer (handleRequestVote (s.clock peer) (s.node peer) req).1
  | voteReply {i : Nat} {sender peer : N} {req : RequestVoteRequest N} {r : RequestVoteResponse}
      (hi : s.votes[i]? = some ⟨sender, peer, false, req, .answered r⟩) :
      Section cfg s (.voteReply i) sender ((s.node sender).observeTerm r.term)
  | elected {n : N} {b : Ballot N} (hb : s.timer n = .election b)
      (hcand : (s.node n).state = .candidate) (hterm : (s.node n).currentTerm = b.term) :
      Section cfg s (.finishBallot n) n (becomeLeader cfg n (s.node n))
  | appendEntries {i : Nat} (io : AppendIo) {sender peer : N} {nextIdx : Nat}
      {req : AppendEntriesRequest N C}
      (hi : s.appends[i]? = some ⟨sender, peer, nextIdx, req, .sent⟩) :
      Section cfg s (.appendHandle i io) peer
        (handleAppendEntries cfg peer (s.clock peer) io (s.node peer) req).1
  | appendReply {i : Nat} {sender peer : N} {nextIdx : Nat} {req : AppendEntriesRequest N C}
      {r : AppendEntriesResponse}
      (hi : s.appends[i]? = some ⟨sender, peer, nextIdx, req, .answered r⟩) :
      Section cfg s (.appendReply i) sender
        (appendEntriesReply cfg sender (s.node sender) peer req nextIdx r)
  | chunk {i : Nat} (io : ChunkIo) {sender peer : N} {snap : Snapshot B} {term offset : Nat}
      (hi : s.snaps[i]? = some ⟨sender, peer, snap, term, offset, .sent⟩)
      (hmu : s.snapMu peer = none) :
      Section cfg s (.chunkHandle i io) peer
        (handleInstallSnapshot cfg peer (s.clock peer) io (s.node peer)
          (snapshotChunk cfg sender snap term offset)).1
  | rename {n : N} (ok : Bool) {i index term : Nat} {data : List B}
      (hj : s.snapMu n = some (.installed i index term data)) {file : Option (Snapshot B)}
      (hfile : file = some ⟨index, term, data⟩ ∨ file = (s.node n).snapshotFile) :
      Section cfg s (.renameSnapshot n ok) n ((s.node n).setSnapshotFile file)
  | finishInstall {n : N} (walOk : Bool) {i index term : Nat} {data : List B}
      (hj : s.snapMu n = some (.renamed i index term data)) (wal : List (LogEntry C)) :
      Section cfg s (.installEnd n walOk) n ((finishInstall (s.node n) index term).setWal wal)
  | chunkReply {i : Nat} {sender peer : N} {snap : Snapshot B} {term offset : Nat}
      {r : InstallSnapshotResponse}
      (hi : s.snaps[i]? = some ⟨sender, peer, snap, term, offset, .answered r⟩) :
      Section cfg s (.chunkReply i) sender ((s.node sender).observeTerm r.term)
  | snapshotSent {i : Nat} {sender peer : N} {snap : Snapshot B} {term offset : Nat}
      (hi : s.snaps[i]? = some ⟨sender, peer, snap, term, offset, .delivered⟩) :
      Section cfg s (.snapshotDone i) sender
        (snapshotSent (s.node sender) peer snap.lastIncludedIndex)
  | saveSnapshot {n : N} (ok : Bool) {data : List B} {index term : Nat}
      (hj : s.snapMu n = some (.validated data index term)) :
      Section cfg s (.compactSave n ok) n ((s.node n).setSnapshotFile (some ⟨index, term, data⟩))
  | finishCompact {n : N} (walOk : Bool) {index term : Nat}
      (hj : s.snapMu n = some (.saved index term)) (wal : List (LogEntry C)) :
      Section cfg s (.compactEnd n walOk) n ((compactFinish (s.node n) index term).setWal wal)
  | publish {a : Action N C} {n : N} (command : C) (hlead : (s.node n).state = .leader)
      (ha : a.publishes = true) : Section cfg s a n
        ((s.node n).pushEntry ⟨(s.node n).logLen + 1, (s.node n).currentTerm, command⟩)
  | persist {k : Nat} (ok : Bool) {c : SubmitCall N C} (hk : s.submits[k]? = some c)
      (hphase : c.phase = .published) :
      Section cfg s (.submitPersist k ok) c.self ((s.node c.self).persistEntry c.entry)
  | commit {k : Nat} {c : SubmitCall N C} (hk : s.submits[k]? = some c)
      (hphase : c.phase = .persisted) :
      Section cfg s (.submitCommit k) c.self (Node.updateCommitIndex cfg c.self (s.node c.self))
  | rollback {k : Nat} {c : SubmitCall N C} (hk : s.submits[k]? = some c)
      (hphase : c.phase = .failed) :
      Section cfg s (.submitFail k) c.self
        (submitRollback (s.node c.self) c.entry c.publishedLen)
  | apply {n : N} (hlt : (s.node n).lastApplied < (s.node n).commitIndex) :
      Section cfg s (.applyTake n) n (s.node n).bumpApplied

variable {cfg : Config N} {cb : Callbacks C B S} {s s' : Cluster N C B S} {a : Action N C}

/-- Some section may have run; clocks do not go back, and the tasks and calls of
`sendAppendEntries` progress in their own steps only. -/
structure Runs (cfg : Config N) (s : Cluster N C B S) (a : Action N C) (s' : Cluster N C B S) :
    Prop where
  node : s'.node = s.node ∨ ∃ n x, Section cfg s a n x ∧ s'.node = Function.update s.node n x
  clock : ∀ n, s.clock n ≤ s'.clock n
  appends : a.exchanges = false → s'.appends = s.appends
  sends : a.plans = false → s'.sends = s.sends

/-- A section of `Submit` publishes. -/
theorem publish_submit {n : N} {command : C} {origin : Option Nat} {t : Cluster N C B S}
    (ht : t.node = s.node) (hs : t.submit n command origin = some s') (ha : a.publishes = true) :
    ∃ n x, Section cfg s a n x ∧ s'.node = update s.node n x := by
  obtain ⟨hlead, rfl⟩ := submit_some hs
  rw [ht] at hlead
  refine ⟨n, _, .publish command hlead ha, ?_⟩
  show update t.node n _ = _
  rw [ht]

theorem section_step (hs : step cfg cb s a = some s') :
    s'.node = s.node ∨ ∃ n x, Section cfg s a n x ∧ s'.node = update s.node n x := by
  cases a with
  | tick n d =>
    cases hs
    exact .inl rfl
  | timerExpire n jitter =>
    obtain ⟨_, rfl⟩ := timerExpire_some hs
    exact .inl rfl
  | startPreVote n => obtain rfl | rfl := startPreVote_some hs <;> exact .inl rfl
  | campaign n =>
    obtain ⟨_, rfl⟩ := campaign_some hs
    exact .inr ⟨_, _, .campaign n, rfl⟩
  | voteHandle i =>
    obtain ⟨_, _, _, _, _, rfl⟩ | ⟨_, peer, req, x, r, hi, hx, rfl⟩ := voteHandle_some hs
    · exact .inl rfl
    · exact .inr ⟨_, _, .requestVote hi, by rw [hx]⟩
  | voteReply i =>
    obtain ⟨_, _, _, _, _, _, rfl⟩ | ⟨_, _, _, _, _, hi, _, rfl⟩ := voteReply_some hs
    · exact .inl rfl
    · exact .inr ⟨_, _, .voteReply hi, rfl⟩
  | collect n takeResult =>
    obtain ⟨_, _, _, rfl⟩ | ⟨_, _, _, _, rfl⟩ := collect_some hs <;> exact .inl rfl
  | finishBallot n =>
    obtain rfl | rfl | ⟨b, hb, _, hcand, hterm, rfl⟩ := finishBallot_some hs
    · exact .inl rfl
    · exact .inl rfl
    · exact .inr ⟨_, _, .elected hb hcand hterm, rfl⟩
  | sendStart n peer =>
    obtain ⟨_, _, _, rfl⟩ := sendStart_some hs
    exact .inl rfl
  | sendAppend i => obtain rfl | ⟨_, _, _, _, _, _, rfl⟩ := sendAppend_some hs <;> exact .inl rfl
  | appendHandle i io =>
    obtain ⟨_, _, _, _, x, r, hi, hx, rfl⟩ := appendHandle_some hs
    exact .inr ⟨_, _, .appendEntries io hi, by rw [hx]⟩
  | appendReply i =>
    obtain ⟨_, _, _, _, _, hi, rfl⟩ := appendReply_some hs
    exact .inr ⟨_, _, .appendReply hi, rfl⟩
  | loadSnapshot i => obtain rfl | ⟨_, _, _, _, _, rfl⟩ := loadSnapshot_some hs <;> exact .inl rfl
  | sampleTerm i =>
    obtain ⟨_, _, _, _, _, _, rfl⟩ := sampleTerm_some hs
    exact .inl rfl
  | chunkHandle i io =>
    obtain ⟨_, _, _, _, _, x, out, hi, hmu, hx, ⟨_, _, rfl⟩ | ⟨_, _, rfl⟩⟩ :=
      chunkHandle_some hs <;>
      exact .inr ⟨_, _, .chunk io hi hmu, by rw [hx]⟩
  | runInstaller n =>
    obtain ⟨_, _, _, _, _, ⟨_, _, rfl⟩ | rfl⟩ := runInstaller_some hs <;> exact .inl rfl
  | renameSnapshot n ok =>
    obtain ⟨_, _, _, _, hj, ⟨_, hfile, rfl⟩ | rfl⟩ := renameSnapshot_some hs
    · exact .inr ⟨_, _, .rename ok hj hfile, rfl⟩
    · exact .inl rfl
  | installEnd n walOk =>
    obtain ⟨_, _, _, _, wal, hj, rfl⟩ := installEnd_some hs
    exact .inr ⟨_, _, .finishInstall walOk hj wal, rfl⟩
  | chunkReply i =>
    obtain ⟨_, _, _, _, _, _, _, hi, _, rfl⟩ := chunkReply_some hs
    exact .inr ⟨_, _, .chunkReply hi, rfl⟩
  | snapshotDone i =>
    obtain ⟨_, _, _, _, _, hi, rfl⟩ := snapshotDone_some hs
    exact .inr ⟨_, _, .snapshotSent hi, rfl⟩
  | compactStart n =>
    obtain ⟨_, rfl⟩ := compactStart_some hs
    exact .inl rfl
  | compactCheck n =>
    obtain ⟨_, _, _, rfl⟩ := compactCheck_some hs
    exact .inl rfl
  | compactSave n ok =>
    obtain ⟨_, _, _, hj, rfl | rfl⟩ := compactSave_some hs
    · exact .inr ⟨_, _, .saveSnapshot ok hj, rfl⟩
    · exact .inl rfl
  | compactEnd n walOk =>
    obtain ⟨_, _, wal, hj, rfl⟩ := compactEnd_some hs
    exact .inr ⟨_, _, .finishCompact walOk hj wal, rfl⟩
  | submit n command => exact .inr (publish_submit rfl hs rfl)
  | propose n command =>
    obtain hs | ⟨_, rfl⟩ := propose_some hs
    · exact .inr (publish_submit rfl hs rfl)
    · exact .inl rfl
  | forwardHandle i =>
    obtain ⟨_, _, _, _, _, ⟨_, rfl⟩, hs⟩ | ⟨_, rfl⟩ := forwardHandle_some hs
    · exact .inr (publish_submit (by rfl) hs rfl)
    · exact .inl rfl
  | forwardReply i =>
    obtain ⟨_, rfl⟩ := forwardReply_some hs
    exact .inl rfl
  | submitPersist k ok =>
    obtain ⟨_, _, hk, hphase, ⟨_, rfl⟩ | ⟨_, rfl⟩⟩ := submitPersist_some hs
    · exact .inr ⟨_, _, .persist ok hk hphase, rfl⟩
    · exact .inl rfl
  | submitCommit k =>
    obtain ⟨_, _, hk, hphase, rfl⟩ := submitCommit_some hs
    exact .inr ⟨_, _, .commit hk hphase, rfl⟩
  | submitFail k =>
    obtain ⟨_, _, hk, hphase, rfl⟩ := submitFail_some hs
    exact .inr ⟨_, _, .rollback hk hphase, rfl⟩
  | submitReturn k =>
    obtain ⟨_, _, _, _, _, rfl⟩ := submitReturn_some hs
    exact .inl rfl
  | submitGiveUp k =>
    obtain ⟨_, _, _, _, rfl⟩ := submitGiveUp_some hs
    exact .inl rfl
  | applyTake n =>
    obtain ⟨_, hlt, rfl⟩ := applyTake_some hs
    exact .inr ⟨_, _, .apply hlt, rfl⟩
  | applyRun n =>
    obtain ⟨_, _, rfl⟩ := applyRun_some hs
    exact .inl rfl

/-- **What a step does to the nodes.** -/
theorem step_node (hs : step cfg cb s a = some s') : Runs cfg s a s' := by
  have frame := frame_step hs
  refine ⟨section_step hs, fun m => ?_, frame.appends, frame.sends⟩
  cases hticks : a.ticks with
  | false => rw [frame.clock hticks]
  | true =>
    cases a with
    | tick n d =>
      cases hs
      dsimp only
      by_cases hm : m = n
      · rw [hm, update_self]
        exact Nat.le_add_right ..
      · rw [update_of_ne hm]
    | _ => cases hticks

/-- A relation between a node before and after that holds for every section, and when nothing
happens, holds for every node and every step. -/
theorem Runs.relate (h : Runs cfg s a s') {R : N → Node N C B → Node N C B → Prop}
    (hrefl : ∀ n, R n (s.node n) (s.node n))
    (hsec : ∀ n x, Section cfg s a n x → R n (s.node n) x) (n : N) :
    R n (s.node n) (s'.node n) := by
  rcases h.node with hnode | ⟨m, x, hx, hnode⟩
  · rw [hnode]
    exact hrefl n
  · rw [hnode]
    exact (forall_update_iff _ fun n y => R n (s.node n) y).2 ⟨hsec m x hx, fun n _ => hrefl n⟩ n

end MxKeys.Raft
