/-
# MxKeys.Raft.Standing — how steps move a node's term, vote and state.

Outside elections a node's standing moves in one way only (`Drift`): its term may rise, which clears
the vote, and it may step down; it never gains a vote or an office.  Every handler and every
critical section that is not part of an election drifts, and the proofs here are where that is
checked against each of them.
-/
import MxKeys.Raft.LogView
import MxKeys.Raft.Sections

namespace MxKeys.Raft

variable {N C B S : Type*}

/-- State, term and vote. -/
def Node.standing (x : Node N C B) : State × Nat × Option N := (x.state, x.currentTerm, x.votedFor)

/-- From `x` to `x'` the node gained neither a vote nor an office. -/
structure Drift (x x' : Node N C B) : Prop where
  term_le : x.currentTerm ≤ x'.currentTerm
  same : x'.currentTerm = x.currentTerm → x'.votedFor = x.votedFor
  fresh : x.currentTerm < x'.currentTerm → x'.votedFor = none
  state : x'.state = .follower ∨ (x'.state = x.state ∧ x'.currentTerm = x.currentTerm)

theorem Drift.of_standing {x x' : Node N C B} (h : x'.standing = x.standing) : Drift x x' := by
  obtain ⟨hs, hrest⟩ := Prod.mk.inj h
  obtain ⟨ht, hv⟩ := Prod.mk.inj hrest
  exact ⟨by omega, fun _ => hv, fun hlt => by omega, .inr ⟨hs, ht⟩⟩

theorem Drift.refl (x : Node N C B) : Drift x x := .of_standing rfl

/-- Whatever follows a drift without touching the standing is part of it. -/
theorem Drift.then {x y z : Node N C B} (h : Drift x y) (hz : z.standing = y.standing) :
    Drift x z := by
  obtain ⟨hs, hrest⟩ := Prod.mk.inj hz
  obtain ⟨ht, hv⟩ := Prod.mk.inj hrest
  obtain ⟨hle, hsame, hfresh, hstate⟩ := h
  refine ⟨by omega, fun heq => ?_, fun hlt => ?_, ?_⟩
  · rw [hv]
    exact hsame (by omega)
  · rw [hv]
    exact hfresh (by omega)
  · rw [hs, ht]
    exact hstate

theorem drift_observeTerm (x : Node N C B) (term : Nat) : Drift x (x.observeTerm term) := by
  unfold Node.observeTerm
  split_ifs with h
  · exact ⟨le_of_lt h, fun heq => absurd heq (ne_of_gt h), fun _ => rfl, .inl rfl⟩
  · exact Drift.refl x

theorem drift_hearLeader (x : Node N C B) (now term : Nat) (leader : N) (address : Option N) :
    Drift x (x.hearLeader now term leader address) := by
  unfold Node.hearLeader
  refine ⟨?_, ?_, ?_, .inl rfl⟩ <;> dsimp only <;> split_ifs with h
  · exact le_of_lt h
  · exact le_rfl
  · exact fun heq => absurd heq (ne_of_gt h)
  · exact fun _ => rfl
  · exact fun _ => rfl
  · exact fun hlt => absurd hlt (lt_irrefl _)

/-! ## Votes -/

/-- What `handleRequestVote` does: drift, or grant the one vote of the term. -/
theorem handleRequestVote_spec [DecidableEq N] (now : Nat) (x : Node N C B)
    (req : RequestVoteRequest N)
    {x' : Node N C B} {r : RequestVoteResponse} (h : handleRequestVote now x req = (x', r)) :
    (r.voteGranted = false ∧ Drift x x') ∨
    (r.voteGranted = true ∧ req.term = x'.currentTerm ∧ x.currentTerm ≤ x'.currentTerm ∧
      x'.votedFor = some req.candidateId ∧
      (x.currentTerm = x'.currentTerm → x.votedFor = none ∨ x.votedFor = some req.candidateId) ∧
      (x'.state = .follower ∨ (x'.state = x.state ∧ x'.currentTerm = x.currentTerm))) := by
  unfold handleRequestVote at h
  dsimp only at h
  have hd := drift_observeTerm x req.term
  split_ifs at h with hstale hgrant
  · cases h
    exact .inl ⟨rfl, Drift.refl x⟩
  · cases h
    refine .inr ⟨rfl, ?_, hd.term_le, rfl, ?_, hd.state⟩
    · show req.term = (x.observeTerm req.term).currentTerm
      unfold Node.observeTerm
      split_ifs with hlt
      · rfl
      · omega
    · intro heq
      rw [← hd.same heq.symm]
      exact hgrant.1
  · cases h
    exact .inl ⟨rfl, hd⟩

theorem state_handleRequestVote [DecidableEq N] (now : Nat) (x : Node N C B)
    (req : RequestVoteRequest N) : (handleRequestVote now x req).1.state = .follower ∨
      ((handleRequestVote now x req).1.state = x.state ∧
        (handleRequestVote now x req).1.currentTerm = x.currentTerm) := by
  obtain ⟨_, hd⟩ | ⟨_, _, _, _, _, hst⟩ := handleRequestVote_spec now x req rfl
  · exact hd.state
  · exact hst

/-! ## Appending entries -/

theorem drift_handleAppendEntries (cfg : Config N) (self : N) (now : Nat) (io : AppendIo)
    (x : Node N C B) (req : AppendEntriesRequest N C) :
    Drift x (handleAppendEntries cfg self now io x req).1 := by
  have hear := drift_hearLeader x now req.term req.leaderId req.leaderAddress
  rcases handleAppendEntries_eq cfg self now io x req with h | ⟨_, _, _, h⟩ <;> rw [h]
  · exact Drift.refl x
  · exact hear.then rfl

theorem standing_updateCommitIndex (cfg : Config N) (self : N) (x : Node N C B) :
    (x.updateCommitIndex cfg self).standing = x.standing := by
  obtain ⟨c, hc, _⟩ := updateCommitIndex_eq cfg self x
  rw [hc]
  rfl

theorem drift_appendEntriesReply [DecidableEq N] (cfg : Config N) (self : N) (x : Node N C B)
    (peer : N) (req : AppendEntriesRequest N C) (nextIdx : Nat) (resp : AppendEntriesResponse) :
    Drift x (appendEntriesReply cfg self x peer req nextIdx resp) := by
  rcases appendEntriesReply_eq cfg self x peer req nextIdx resp with h | ⟨_, _, _, h⟩ <;> rw [h]
  · exact drift_observeTerm x resp.term
  · exact .of_standing rfl

/-! ## Snapshots -/

theorem drift_handleInstallSnapshot (cfg : Config N) (self : N) (now : Nat) (io : ChunkIo)
    (x : Node N C B) (req : InstallSnapshotRequest N B) :
    Drift x (handleInstallSnapshot cfg self now io x req).1 := by
  have hear := drift_hearLeader x now req.term req.leaderID req.leaderAddress
  rcases handleInstallSnapshot_eq cfg self now io x req with h | ⟨_, h⟩ <;> rw [h]
  · exact Drift.refl x
  · exact hear.then rfl

theorem standing_compactFinish (x : Node N C B) (i t : Nat) :
    (compactFinish x i t).standing = x.standing := by
  unfold compactFinish
  split_ifs <;> rfl

theorem standing_submitRollback (x : Node N C B) (entry : LogEntry C) (len : Nat) :
    (submitRollback x entry len).standing = x.standing := by
  unfold submitRollback
  split_ifs <;> rfl

/-! ## Steps outside elections -/

/-- The step leaves everything about elections alone, up to drift. -/
structure Quiet (s s' : Cluster N C B S) : Prop where
  timer : s'.timer = s.timer
  votes : s'.votes = s.votes
  votesCast : s'.votesCast = s.votesCast
  elections : s'.elections = s.elections
  node : ∀ n, Drift (s.node n) (s'.node n)

section

variable [DecidableEq N] {cfg : Config N} {cb : Callbacks C B S} {s s' : Cluster N C B S}

/-- One node drifts, the others stay. -/
theorem drift_setNode {n : N} {x : Node N C B} (h : Drift (s.node n) x) (m : N) :
    Drift (s.node m) ((s.setNode n x).node m) := by
  by_cases hm : m = n
  · subst hm
    simpa [Cluster.setNode] using h
  · simpa [Cluster.setNode, hm] using Drift.refl (s.node m)

omit [DecidableEq N] in
theorem quiet_forwards (h : OnlyForwards s s') : Quiet s s' := by
  obtain ⟨f, rfl⟩ := h
  exact ⟨rfl, rfl, rfl, rfl, fun _ => Drift.refl _⟩

theorem Section.drift {a : Action N C} (ha : a.electoral = false) {n : N} {x : Node N C B}
    (h : Section cfg s a n x) : Drift (s.node n) x := by
  cases h with
  | campaign | requestVote | voteReply | elected => cases ha
  | appendEntries => exact drift_handleAppendEntries ..
  | appendReply => exact drift_appendEntriesReply ..
  | chunk => exact drift_handleInstallSnapshot ..
  | chunkReply => exact drift_observeTerm ..
  | finishCompact => exact .of_standing (standing_compactFinish ..)
  | commit => exact .of_standing (standing_updateCommitIndex ..)
  | rollback => exact .of_standing (standing_submitRollback ..)
  | rename | finishInstall | snapshotSent | saveSnapshot | publish | persist | apply =>
    exact .of_standing rfl

/-- **Every step that is not electoral is quiet.** -/
theorem quiet_step {a : Action N C} (ha : a.electoral = false) (h : step cfg cb s a = some s') :
    Quiet s s' := by
  have frame := frame_step h
  have helects : a.elects = false := by cases a <;> first | rfl | cases ha
  refine ⟨frame.timer ha, frame.votes ha, frame.votesCast ha, frame.elections helects, ?_⟩
  exact (step_node h).relate (R := fun _ => Drift) (fun _ => Drift.refl _)
    fun _ _ => Section.drift ha

end

end MxKeys.Raft
