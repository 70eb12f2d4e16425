/-
# MxKeys.Raft.Steps — what each step of the cluster can do.

One inversion lemma per action: the guard it was taken under and the state it leads to.  For the
requests, the transfers, the holders of `snapMu` and the calls of `Submit` a further one says what
any step can do to them.  The proofs about runs use these and never unfold a step.
-/
import MxKeys.Raft.Cluster

namespace MxKeys.Raft

open Option Function

variable {N C B S : Type*} [DecidableEq N] {cfg : Config N} {cb : Callbacks C B S}
  {s s' : Cluster N C B S} {n : N} {i k : Nat}

/-! ## Elections -/

theorem timerExpire_some {jitter : Nat} (h : s.timerExpire cfg n jitter = some s') :
    (s.node n).state ≠ .leader ∧ s' = s.setTimer n .expired := by
  unfold Cluster.timerExpire at h
  split at h
  · split_ifs at h with hg
    exact ⟨hg.1, (some.inj h).symm⟩
  · cases h

theorem startPreVote_some (h : s.startPreVote cfg n = some s') :
    s' = s.setTimer n .campaign ∨
    s' = { s with
        timer := update s.timer n (.preVote
          ⟨(s.node n).currentTerm + 1, s.votes.length, [], (cfg.peers n).length, []⟩)
        votes := s.votes ++ voteCalls cfg n true
          ((s.node n).voteRequest n ((s.node n).currentTerm + 1)) } := by
  unfold Cluster.startPreVote at h
  split at h
  · dsimp only at h
    split_ifs at h
    · exact .inl (some.inj h).symm
    · exact .inr (some.inj h).symm
  · cases h

theorem campaign_some (h : s.campaign cfg n = some s') :
    s.timer n = .campaign ∧
    s' = { s with
        node := update s.node n (startElection n (s.clock n) (s.node n))
        timer := update s.timer n (.election
          ⟨(s.node n).currentTerm + 1, s.votes.length, [], (cfg.peers n).length, []⟩)
        votes := s.votes ++ voteCalls cfg n false
          ((s.node n).voteRequest n ((s.node n).currentTerm + 1))
        votesCast := (n, (s.node n).currentTerm + 1, n) :: s.votesCast } := by
  unfold Cluster.campaign at h
  split at h
  · exact ⟨by assumption, (some.inj h).symm⟩
  · cases h

theorem voteHandle_some (h : s.voteHandle cfg i = some s') :
    (∃ sender peer req r, s.votes[i]? = some ⟨sender, peer, true, req, .sent⟩ ∧
      s' = { s with votes := s.votes.set i ⟨sender, peer, true, req, .answered r⟩ }) ∨
    ∃ sender peer req x r, s.votes[i]? = some ⟨sender, peer, false, req, .sent⟩ ∧
      handleRequestVote (s.clock peer) (s.node peer) req = (x, r) ∧
      s' = { s with
        node := update s.node peer x
        votes := s.votes.set i ⟨sender, peer, false, req, .answered r⟩
        votesCast :=
          if r.voteGranted then (peer, x.currentTerm, req.candidateId) :: s.votesCast
          else s.votesCast } := by
  unfold Cluster.voteHandle at h
  split at h
  · exact .inl ⟨_, _, _, _, by assumption, (some.inj h).symm⟩
  · exact .inr ⟨_, _, _, _, _, by assumption, rfl, (some.inj h).symm⟩
  · cases h

theorem voteReply_some (h : s.voteReply i = some s') :
    (∃ sender peer req r granted, s.votes[i]? = some ⟨sender, peer, true, req, .answered r⟩ ∧
      s' = { s with
        timer := update s.timer sender ((s.timer sender).push true i (peer, granted))
        votes := s.votes.set i ⟨sender, peer, true, req, .finished⟩ }) ∨
    ∃ sender peer req r granted, s.votes[i]? = some ⟨sender, peer, false, req, .answered r⟩ ∧
      (granted = true → r.voteGranted = true) ∧
      s' = { s with
        node := update s.node sender ((s.node sender).observeTerm r.term)
        timer := update s.timer sender ((s.timer sender).push false i (peer, granted))
        votes := s.votes.set i ⟨sender, peer, false, req, .finished⟩ } := by
  unfold Cluster.voteReply at h
  split at h
  · exact .inl ⟨_, _, _, _, _, by assumption, (some.inj h).symm⟩
  · refine .inr ⟨_, _, _, _, _, by assumption, ?_, (some.inj h).symm⟩
    split_ifs <;> simp
  · cases h

theorem collect_some {takeResult : Bool} (h : s.collect cfg n takeResult = some s') :
    (∃ b b', s.timer n = .preVote b ∧ s' = s.setTimer n (.preVote b')) ∨
    ∃ b b', s.timer n = .election b ∧ b.collect (cfg.needed n) takeResult = some b' ∧
      s' = s.setTimer n (.election b') := by
  unfold Cluster.collect at h
  split at h
  · obtain ⟨b', _, rfl⟩ := map_eq_some_iff.1 h
    exact .inl ⟨_, b', by assumption, rfl⟩
  · obtain ⟨b', hb', rfl⟩ := map_eq_some_iff.1 h
    exact .inr ⟨_, b', by assumption, hb', rfl⟩
  · cases h

theorem finishBallot_some (h : s.finishBallot cfg n = some s') :
    s' = s.setTimer n .campaign ∨ s' = s.setTimer n .waiting ∨
    ∃ b, s.timer n = .election b ∧ cfg.needed n ≤ b.grants.length + 1 ∧
      (s.node n).state = .candidate ∧ (s.node n).currentTerm = b.term ∧
      s' = { s with
        node := update s.node n (becomeLeader cfg n (s.node n))
        timer := update s.timer n .waiting
        elections := (b.term, n) :: s.elections } := by
  unfold Cluster.finishBallot at h
  split at h
  · split_ifs at h
    · exact .inl (some.inj h).symm
    · exact .inr (.inl (some.inj h).symm)
  · split_ifs at h with hn hc
    · exact .inr (.inr ⟨_, by assumption, hn, hc.1, hc.2, (some.inj h).symm⟩)
    · exact .inr (.inl (some.inj h).symm)
    · exact .inr (.inl (some.inj h).symm)
  · cases h

/-! ## Replication -/

theorem sendStart_some {peer : N} (h : s.sendStart cfg n peer = some s') :
    ∃ t, (t = .catchUp n peer ∨ t = .append n peer) ∧ peer ∈ cfg.peers n ∧
      s' = { s with sends := s.sends ++ [t] } := by
  unfold Cluster.sendStart at h
  split_ifs at h with hp
  · exact ⟨_, .inl rfl, hp, (some.inj h).symm⟩
  · exact ⟨_, .inr rfl, hp, (some.inj h).symm⟩

omit [DecidableEq N] in
theorem sendAppend_some (h : s.sendAppend cfg i = some s') :
    s' = { s with sends := s.sends.set i .started } ∨
    ∃ n peer req nextIdx, s.sends[i]? = some (.append n peer) ∧
      appendEntriesSnapshot cfg n (s.node n) peer = some (req, nextIdx) ∧
      s' = { s with
        sends := s.sends.set i .started
        appends := s.appends ++ [⟨n, peer, nextIdx, req, .sent⟩] } := by
  unfold Cluster.sendAppend at h
  split at h
  · dsimp only at h
    split at h
    · exact .inr ⟨_, _, _, _, by assumption, by assumption, (some.inj h).symm⟩
    · exact .inl (some.inj h).symm
  · cases h

theorem appendHandle_some {io : AppendIo} (h : s.appendHandle cfg i io = some s') :
    ∃ sender peer nextIdx req x r, s.appends[i]? = some ⟨sender, peer, nextIdx, req, .sent⟩ ∧
      handleAppendEntries cfg peer (s.clock peer) io (s.node peer) req = (x, r) ∧
      s' = { s with
        node := update s.node peer x
        appends := s.appends.set i ⟨sender, peer, nextIdx, req, .answered r⟩ } := by
  unfold Cluster.appendHandle at h
  split at h
  · exact ⟨_, _, _, _, _, _, by assumption, rfl, (some.inj h).symm⟩
  · cases h

theorem appendReply_some (h : s.appendReply cfg i = some s') :
    ∃ sender peer nextIdx req r, s.appends[i]? = some ⟨sender, peer, nextIdx, req, .answered r⟩ ∧
      s' = { s with
        node := update s.node sender
          (appendEntriesReply cfg sender (s.node sender) peer req nextIdx r)
        appends := s.appends.set i ⟨sender, peer, nextIdx, req, .finished⟩ } := by
  unfold Cluster.appendReply at h
  split at h
  · exact ⟨_, _, _, _, _, by assumption, (some.inj h).symm⟩
  · cases h

/-! ## Installing snapshots -/

omit [DecidableEq N] in
theorem loadSnapshot_some (h : s.loadSnapshot cfg i = some s') :
    s' = { s with sends := s.sends.set i .started } ∨
    ∃ n peer snap, s.sends[i]? = some (.catchUp n peer) ∧ (s.node n).snapshotFile = some snap ∧
      s' = { s with
        sends := s.sends.set i .started
        snaps := s.snaps ++ [⟨n, peer, snap, 0, 0, .loaded⟩] } := by
  unfold Cluster.loadSnapshot at h
  split at h
  · dsimp only at h
    split at h
    · exact .inr ⟨_, _, _, by assumption, by assumption, (some.inj h).symm⟩
    · exact .inl (some.inj h).symm
  · cases h

omit [DecidableEq N] in
theorem sampleTerm_some (h : s.sampleTerm i = some s') :
    ∃ n peer snap term offset, s.snaps[i]? = some ⟨n, peer, snap, term, offset, .loaded⟩ ∧
      s' = { s with
        snaps := s.snaps.set i ⟨n, peer, snap, (s.node n).currentTerm, offset, .sent⟩ } := by
  unfold Cluster.sampleTerm at h
  split at h
  · exact ⟨_, _, _, _, _, by assumption, (some.inj h).symm⟩
  · cases h

theorem chunkHandle_some {io : ChunkIo} (h : s.chunkHandle cfg i io = some s') :
    ∃ n peer snap term offset x out,
      s.snaps[i]? = some ⟨n, peer, snap, term, offset, .sent⟩ ∧ s.snapMu peer = none ∧
      handleInstallSnapshot cfg peer (s.clock peer) io (s.node peer)
        (snapshotChunk cfg n snap term offset) = (x, out) ∧
      ((∃ r, out = .reply r ∧ s' = { s with
          node := update s.node peer x
          snaps := s.snaps.set i ⟨n, peer, snap, term, offset, .answered r⟩ }) ∨
        ∃ data, out = .install data ∧ s' = { s with
          node := update s.node peer x
          snapMu := update s.snapMu peer
            (some (.install i snap.lastIncludedIndex snap.lastIncludedTerm data))
          snaps := s.snaps.set i ⟨n, peer, snap, term, offset, .handling⟩ }) := by
  unfold Cluster.chunkHandle at h
  split at h
  · split at h
    · cases h
    · split at h
      · exact ⟨_, _, _, _, _, _, _, by assumption, by assumption, by assumption,
          .inl ⟨_, rfl, (some.inj h).symm⟩⟩
      · exact ⟨_, _, _, _, _, _, _, by assumption, by assumption, by assumption,
          .inr ⟨_, rfl, (some.inj h).symm⟩⟩
  · cases h

theorem runInstaller_some (h : s.runInstaller cb n = some s') :
    ∃ i index term data, s.snapMu n = some (.install i index term data) ∧
      ((∃ a, cb.snapshotInstaller (s.app n) data index term = some a ∧
          s' = { s with
            snapMu := update s.snapMu n (some (.installed i index term data))
            app := update s.app n a }) ∨
        s' = s.answerChunk n i ⟨(s.node n).currentTerm, false, 0⟩) := by
  unfold Cluster.runInstaller at h
  split at h
  · refine ⟨_, _, _, _, by assumption, ?_⟩
    split at h
    · exact .inl ⟨_, by assumption, (some.inj h).symm⟩
    · exact .inr (some.inj h).symm
  · cases h

variable {ok walOk : Bool} {command : C}

theorem renameSnapshot_some (h : s.renameSnapshot cfg n ok = some s') :
    ∃ i index term data, s.snapMu n = some (.installed i index term data) ∧
      ((∃ file, (file = some ⟨index, term, data⟩ ∨ file = (s.node n).snapshotFile) ∧
          s' = (s.setNode n ((s.node n).setSnapshotFile file)).setSnapMu n
            (some (.renamed i index term data))) ∨
        s' = s.answerChunk n i ⟨(s.node n).currentTerm, false, 0⟩) := by
  unfold Cluster.renameSnapshot at h
  split at h
  · refine ⟨_, _, _, _, by assumption, ?_⟩
    split_ifs at h
    · exact .inl ⟨_, .inl rfl, (some.inj h).symm⟩
    · exact .inl ⟨_, .inr rfl, (some.inj h).symm⟩
    · exact .inr (some.inj h).symm
  · cases h

theorem renameSnapshot_ok (hok : ok = true) (h : s.renameSnapshot cfg n ok = some s') :
    ∃ i index term data, s.snapMu n = some (.installed i index term data) ∧
      ∃ file, (file = some ⟨index, term, data⟩ ∨ file = (s.node n).snapshotFile) ∧
        s' = (s.setNode n ((s.node n).setSnapshotFile file)).setSnapMu n
          (some (.renamed i index term data)) := by
  subst hok
  unfold Cluster.renameSnapshot Config.diskOk at h
  split at h
  · refine ⟨_, _, _, _, by assumption, ?_⟩
    rw [if_pos (Bool.or_true _)] at h
    split_ifs at h
    · exact ⟨_, .inl rfl, (some.inj h).symm⟩
    · exact ⟨_, .inr rfl, (some.inj h).symm⟩
  · cases h

theorem installEnd_some (h : s.installEnd n walOk = some s') :
    ∃ i index term data wal, s.snapMu n = some (.renamed i index term data) ∧
      s' = (s.setNode n ((finishInstall (s.node n) index term).setWal wal)).answerChunk n i
        ⟨(s.node n).currentTerm, true, data.length⟩ := by
  unfold Cluster.installEnd at h
  split at h
  · cases walOk
    · exact ⟨_, _, _, _, (s.node n).wal, by assumption, (some.inj h).symm⟩
    · exact ⟨_, _, _, _, _, by assumption, (some.inj h).symm⟩
  · cases h

theorem chunkReply_some (h : s.chunkReply i = some s') :
    ∃ n peer snap term offset r c,
      s.snaps[i]? = some ⟨n, peer, snap, term, offset, .answered r⟩ ∧
      (c = ⟨n, peer, snap, term, offset, .finished⟩ ∨
        (r.success = true ∧ snap.data.length ≤ offset + snapshotChunkSize ∧
          c = ⟨n, peer, snap, term, offset, .delivered⟩) ∨
        c = ⟨n, peer, snap, term, offset + snapshotChunkSize, .sent⟩) ∧
      s' = { s with
        node := update s.node n ((s.node n).observeTerm r.term)
        snaps := s.snaps.set i c } := by
  unfold Cluster.chunkReply at h
  split at h
  · rename_i n peer snap term offset r hc
    refine ⟨n, peer, snap, term, offset, r, _, hc, ?_, (some.inj h).symm⟩
    split_ifs with h1 h2
    · exact .inl rfl
    · exact .inr (.inl ⟨by simpa using h1, h2, rfl⟩)
    · exact .inr (.inr rfl)
  · cases h

theorem snapshotDone_some (h : s.snapshotDone i = some s') :
    ∃ n peer snap term offset, s.snaps[i]? = some ⟨n, peer, snap, term, offset, .delivered⟩ ∧
      s' = { s with
        node := update s.node n (snapshotSent (s.node n) peer snap.lastIncludedIndex)
        snaps := s.snaps.set i ⟨n, peer, snap, term, offset, .finished⟩ } := by
  unfold Cluster.snapshotDone at h
  split at h
  · exact ⟨_, _, _, _, _, by assumption, (some.inj h).symm⟩
  · cases h

/-! ## Compaction -/

theorem compactStart_some (h : s.compactStart cfg cb n = some s') :
    s.snapMu n = none ∧ s' = s.setSnapMu n
      (some (.provided (cb.snapshotProvider (s.app n)).1 (cb.snapshotProvider (s.app n)).2)) := by
  unfold Cluster.compactStart at h
  split at h
  · exact ⟨by assumption, (some.inj h).symm⟩
  · cases h

theorem compactCheck_some (h : s.compactCheck n = some s') :
    ∃ data appliedIdx, s.snapMu n = some (.provided data appliedIdx) ∧
      s' = s.setSnapMu n ((compactValidate (s.node n) appliedIdx).map
        fun term => .validated data appliedIdx term) := by
  unfold Cluster.compactCheck at h
  split at h
  · exact ⟨_, _, by assumption, (some.inj h).symm⟩
  · cases h

theorem compactSave_some (h : s.compactSave n ok = some s') :
    ∃ data appliedIdx term, s.snapMu n = some (.validated data appliedIdx term) ∧
      (s' = (s.setNode n ((s.node n).setSnapshotFile (some ⟨appliedIdx, term, data⟩))).setSnapMu n
          (some (.saved appliedIdx term)) ∨
        s' = s.setSnapMu n none) := by
  unfold Cluster.compactSave at h
  split at h
  · refine ⟨_, _, _, by assumption, ?_⟩
    split_ifs at h
    · exact .inl (some.inj h).symm
    · exact .inr (some.inj h).symm
  · cases h

theorem compactEnd_some (h : s.compactEnd n walOk = some s') :
    ∃ appliedIdx term wal, s.snapMu n = some (.saved appliedIdx term) ∧
      s' =
        (s.setNode n ((compactFinish (s.node n) appliedIdx term).setWal wal)).setSnapMu n none := by
  unfold Cluster.compactEnd at h
  split at h
  · cases walOk
    · exact ⟨_, _, (compactFinish (s.node n) _ _).wal, by assumption, (some.inj h).symm⟩
    · exact ⟨_, _, _, by assumption, (some.inj h).symm⟩
  · cases h

/-! ## Submit and Propose -/

theorem submit_some {origin : Option Nat} (h : s.submit n command origin = some s') :
    (s.node n).state = .leader ∧
    s' = { s with
        node := update s.node n
          ((s.node n).pushEntry ⟨(s.node n).logLen + 1, (s.node n).currentTerm, command⟩)
        submits := s.submits ++ [⟨n, ⟨(s.node n).logLen + 1, (s.node n).currentTerm, command⟩,
          (s.node n).log.length + 1, origin, .published⟩] } := by
  unfold Cluster.submit submitPublish at h
  split_ifs at h with hl
  · exact ⟨hl, (some.inj h).symm⟩

/-- `forwards` changes, nothing else. -/
def OnlyForwards (s s' : Cluster N C B S) : Prop := ∃ f, s' = { s with forwards := f }

omit [DecidableEq N] in
theorem onlyForwards_setForward (s : Cluster N C B S) (i : Nat) (phase : ForwardPhase) :
    OnlyForwards s (s.setForward i phase) := ⟨_, rfl⟩

theorem propose_some (h : s.propose n command = some s') :
    s.submit n command none = some s' ∨ OnlyForwards s s' := by
  unfold Cluster.propose at h
  split_ifs at h
  · exact .inl h
  · split at h
    · exact .inr ⟨_, (some.inj h).symm⟩
    · cases h

theorem forwardHandle_some (h : s.forwardHandle i = some s') :
    (∃ t sender leader command, s.forwards[i]? = some ⟨sender, leader, command, .sent⟩ ∧
      OnlyForwards s t ∧ t.submit leader command (some i) = some s') ∨ OnlyForwards s s' := by
  unfold Cluster.forwardHandle at h
  split at h
  · split_ifs at h
    · exact .inl ⟨_, _, _, _, by assumption, onlyForwards_setForward s i _, h⟩
    · exact .inr ⟨_, (some.inj h).symm⟩
  · cases h

omit [DecidableEq N] in
theorem forwardReply_some (h : s.forwardReply i = some s') : OnlyForwards s s' := by
  unfold Cluster.forwardReply at h
  split at h
  · exact ⟨_, (some.inj h).symm⟩
  · cases h

omit [DecidableEq N] in
theorem setSubmit_eq (s : Cluster N C B S) (k : Nat) (c : SubmitCall N C) (phase : SubmitPhase C)
    (verdict : Option Bool) : ∃ f, s.setSubmit k c phase verdict =
      { s with submits := s.submits.set k { c with phase := phase }, forwards := f } := by
  unfold Cluster.setSubmit
  split
  · exact ⟨_, rfl⟩
  · exact ⟨s.forwards, rfl⟩

theorem submitPersist_some (h : s.submitPersist cfg k ok = some s') :
    ∃ c f, s.submits[k]? = some c ∧ c.phase = .published ∧
      ((cfg.diskOk c.self ok = true ∧
          s' = { s with
            node := update s.node c.self ((s.node c.self).persistEntry c.entry)
            submits := s.submits.set k { c with phase := .persisted }, forwards := f }) ∨
        (cfg.diskOk c.self ok = false ∧
          s' = { s with
            submits := s.submits.set k { c with phase := .failed }, forwards := f })) := by
  unfold Cluster.submitPersist at h
  split at h
  · rename_i n entry len origin hc
    split_ifs at h with hok
    · obtain ⟨f, hf⟩ := setSubmit_eq (s.setNode n ((s.node n).persistEntry entry)) k
        ⟨n, entry, len, origin, .published⟩ .persisted none
      exact ⟨_, f, hc, rfl, .inl ⟨hok, (some.inj h).symm.trans hf⟩⟩
    · obtain ⟨f, hf⟩ := setSubmit_eq s k ⟨n, entry, len, origin, .published⟩ .failed none
      exact ⟨_, f, hc, rfl, .inr ⟨by simpa using hok, (some.inj h).symm.trans hf⟩⟩
  · cases h

theorem submitCommit_some (h : s.submitCommit cfg k = some s') :
    ∃ c f, s.submits[k]? = some c ∧ c.phase = .persisted ∧
      s' = { s with
        node := update s.node c.self (Node.updateCommitIndex cfg c.self (s.node c.self))
        submits := s.submits.set k { c with phase := .waiting }, forwards := f } := by
  unfold Cluster.submitCommit at h
  split at h
  · rename_i n entry len origin hc
    obtain ⟨f, hf⟩ := setSubmit_eq (s.setNode n (Node.updateCommitIndex cfg n (s.node n))) k
      ⟨n, entry, len, origin, .persisted⟩ .waiting none
    exact ⟨_, f, hc, rfl, (some.inj h).symm.trans hf⟩
  · cases h

theorem submitFail_some (h : s.submitFail k = some s') :
    ∃ c f, s.submits[k]? = some c ∧ c.phase = .failed ∧
      s' = { s with
        node := update s.node c.self (submitRollback (s.node c.self) c.entry c.publishedLen)
        submits := s.submits.set k { c with
          phase := .rolledBack ((s.node c.self).rolledBackEntry c.entry c.publishedLen) }
        forwards := f } := by
  unfold Cluster.submitFail at h
  split at h
  · rename_i n entry len origin hc
    obtain ⟨f, hf⟩ := setSubmit_eq (s.setNode n (submitRollback (s.node n) entry len)) k
      ⟨n, entry, len, origin, .failed⟩ (.rolledBack ((s.node n).rolledBackEntry entry len))
      (some false)
    exact ⟨_, f, hc, rfl, (some.inj h).symm.trans hf⟩
  · cases h

omit [DecidableEq N] in
theorem submitReturn_some (h : s.submitReturn k = some s') :
    ∃ c f, s.submits[k]? = some c ∧ c.phase = .waiting ∧
      c.entry.index ≤ (s.node c.self).commitIndex ∧
      s' = { s with submits := s.submits.set k { c with phase := .acked }, forwards := f } := by
  unfold Cluster.submitReturn at h
  split at h
  · rename_i n entry len origin hc
    split_ifs at h with hi
    obtain ⟨f, hf⟩ := setSubmit_eq s k ⟨n, entry, len, origin, .waiting⟩ .acked (some true)
    exact ⟨_, f, hc, rfl, hi, (some.inj h).symm.trans hf⟩
  · cases h

omit [DecidableEq N] in
theorem submitGiveUp_some (h : s.submitGiveUp k = some s') :
    ∃ c f, s.submits[k]? = some c ∧ c.phase = .waiting ∧
      s' = { s with submits := s.submits.set k { c with phase := .gaveUp }, forwards := f } := by
  unfold Cluster.submitGiveUp at h
  split at h
  · rename_i n entry len origin hc
    obtain ⟨f, hf⟩ := setSubmit_eq s k ⟨n, entry, len, origin, .waiting⟩ .gaveUp (some false)
    exact ⟨_, f, hc, rfl, (some.inj h).symm.trans hf⟩
  · cases h

/-! ## Applying -/

theorem applyTake_some (h : s.applyTake n = some s') :
    s.applying n = none ∧ (s.node n).lastApplied < (s.node n).commitIndex ∧
      s' = { s with
        node := update s.node n (s.node n).bumpApplied
        applying := update s.applying n
          ((s.node n).entryAt ((s.node n).lastApplied + 1)) } := by
  unfold Cluster.applyTake applyNext at h
  split at h
  · rename_i x e ha hn
    split_ifs at hn with hlt
    cases hn
    exact ⟨ha, hlt, (some.inj h).symm⟩
  · cases h

theorem applyRun_some (h : s.applyRun cb n = some s') :
    ∃ entry, s.applying n = some entry ∧ s' = { s with
      app := update s.app n (cb.onApply (s.app n) entry)
      applying := update s.applying n none
      applied := (n, entry) :: s.applied } := by
  unfold Cluster.applyRun at h
  split at h
  · exact ⟨_, by assumption, (some.inj h).symm⟩
  · cases h

/-! ## What a step leaves alone -/

/-- Time passes. -/
def Action.ticks : Action N C → Bool
  | .tick _ _ => true
  | _ => false

/-- The actions of the election timer and of the vote RPCs. -/
def Action.electoral : Action N C → Bool
  | .timerExpire .. | .startPreVote .. | .campaign .. | .voteHandle .. | .voteReply .. => true
  | .collect .. | .finishBallot .. => true
  | _ => false

/-- The action that may make a leader. -/
def Action.elects : Action N C → Bool
  | .finishBallot _ => true
  | _ => false

/-- The three steps of an `AppendEntries` call. -/
def Action.exchanges : Action N C → Bool
  | .sendAppend _ | .appendHandle _ _ | .appendReply _ => true
  | _ => false

/-- The steps of `sendAppendEntries` before a call goes out. -/
def Action.plans : Action N C → Bool
  | .sendStart _ _ | .sendAppend _ | .loadSnapshot _ => true
  | _ => false

/-- Actions that move the transfer of a snapshot. -/
def Action.streams : Action N C → Bool
  | .loadSnapshot _ | .sampleTerm _ | .chunkHandle _ _ | .runInstaller _ | .renameSnapshot _ _
  | .installEnd _ _ | .chunkReply _ | .snapshotDone _ => true
  | _ => false

/-- Actions that take `snapMu`, hold it or release it. -/
def Action.holds : Action N C → Bool
  | .chunkHandle _ _ | .runInstaller _ | .renameSnapshot _ _ | .installEnd _ _ | .compactStart _
  | .compactCheck _ | .compactSave _ _ | .compactEnd _ _ => true
  | _ => false

/-- Actions that may begin a `Submit`. -/
def Action.publishes : Action N C → Bool
  | .submit _ _ | .propose _ _ | .forwardHandle _ => true
  | _ => false

/-- Actions that move a `Submit` or a forwarded proposal. -/
def Action.moves : Action N C → Bool
  | .submit _ _ | .propose _ _ | .forwardHandle _ | .forwardReply _ | .submitPersist _ _
  | .submitCommit _ | .submitFail _ | .submitReturn _ | .submitGiveUp _ => true
  | _ => false

/-- Actions that call into the application, and the one that takes the next entry for it. -/
def Action.applies : Action N C → Bool
  | .runInstaller _ | .applyTake _ | .applyRun _ => true
  | _ => false

/-- Each part of the cluster changes in its own steps only. -/
structure Frame (a : Action N C) (s s' : Cluster N C B S) : Prop where
  clock : a.ticks = false → s'.clock = s.clock
  timer : a.electoral = false → s'.timer = s.timer
  votes : a.electoral = false → s'.votes = s.votes
  votesCast : a.electoral = false → s'.votesCast = s.votesCast
  elections : a.elects = false → s'.elections = s.elections
  appends : a.exchanges = false → s'.appends = s.appends
  sends : a.plans = false → s'.sends = s.sends
  snaps : a.streams = false → s'.snaps = s.snaps
  snapMu : a.holds = false → s'.snapMu = s.snapMu
  submits : a.moves = false → s'.submits = s.submits
  forwards : a.moves = false → s'.forwards = s.forwards
  app : a.applies = false → s'.app = s.app
  applying : a.applies = false → s'.applying = s.applying
  applied : a.applies = false → s'.applied = s.applied

/-- **What a step leaves alone**, said once for all parts. -/
theorem frame_step {a : Action N C} (h : step cfg cb s a = some s') : Frame a s s' := by
  cases a
  case' tick => cases h
  case' timerExpire => obtain ⟨_, rfl⟩ := timerExpire_some h
  case' startPreVote => obtain rfl | rfl := startPreVote_some h
  case' campaign => obtain ⟨_, rfl⟩ := campaign_some h
  case' voteHandle =>
    obtain ⟨_, _, _, _, _, rfl⟩ | ⟨_, _, _, _, _, _, _, rfl⟩ := voteHandle_some h
  case' voteReply =>
    obtain ⟨_, _, _, _, _, _, rfl⟩ | ⟨_, _, _, _, _, _, _, rfl⟩ := voteReply_some h
  case' collect => obtain ⟨_, _, _, rfl⟩ | ⟨_, _, _, _, rfl⟩ := collect_some h
  case' finishBallot => obtain rfl | rfl | ⟨_, _, _, _, _, rfl⟩ := finishBallot_some h
  case' sendStart => obtain ⟨_, _, _, rfl⟩ := sendStart_some h
  case' sendAppend => obtain rfl | ⟨_, _, _, _, _, _, rfl⟩ := sendAppend_some h
  case' appendHandle => obtain ⟨_, _, _, _, _, _, _, _, rfl⟩ := appendHandle_some h
  case' appendReply => obtain ⟨_, _, _, _, _, _, rfl⟩ := appendReply_some h
  case' loadSnapshot => obtain rfl | ⟨_, _, _, _, _, rfl⟩ := loadSnapshot_some h
  case' sampleTerm => obtain ⟨_, _, _, _, _, _, rfl⟩ := sampleTerm_some h
  case' chunkHandle =>
    obtain ⟨_, _, _, _, _, _, _, _, _, _, ⟨_, _, rfl⟩ | ⟨_, _, rfl⟩⟩ := chunkHandle_some h
  case' runInstaller => obtain ⟨_, _, _, _, _, ⟨_, _, rfl⟩ | rfl⟩ := runInstaller_some h
  case' renameSnapshot => obtain ⟨_, _, _, _, _, ⟨_, _, rfl⟩ | rfl⟩ := renameSnapshot_some h
  case' installEnd => obtain ⟨_, _, _, _, _, _, rfl⟩ := installEnd_some h
  case' chunkReply => obtain ⟨_, _, _, _, _, _, _, _, _, rfl⟩ := chunkReply_some h
  case' snapshotDone => obtain ⟨_, _, _, _, _, _, rfl⟩ := snapshotDone_some h
  case' compactStart => obtain ⟨_, rfl⟩ := compactStart_some h
  case' compactCheck => obtain ⟨_, _, _, rfl⟩ := compactCheck_some h
  case' compactSave => obtain ⟨_, _, _, _, rfl | rfl⟩ := compactSave_some h
  case' compactEnd => obtain ⟨_, _, _, _, rfl⟩ := compactEnd_some h
  case' submit => obtain ⟨_, rfl⟩ := submit_some h
  case' propose =>
    obtain h | ⟨_, rfl⟩ := propose_some h
    obtain ⟨_, rfl⟩ := submit_some h
  case' forwardHandle =>
    obtain ⟨_, _, _, _, _, ⟨_, rfl⟩, h⟩ | ⟨_, rfl⟩ := forwardHandle_some h
    obtain ⟨_, rfl⟩ := submit_some h
  case' forwardReply => obtain ⟨_, rfl⟩ := forwardReply_some h
  case' submitPersist => obtain ⟨_, _, _, _, ⟨_, rfl⟩ | ⟨_, rfl⟩⟩ := submitPersist_some h
  case' submitCommit => obtain ⟨_, _, _, _, rfl⟩ := submitCommit_some h
  case' submitFail => obtain ⟨_, _, _, _, rfl⟩ := submitFail_some h
  case' submitReturn => obtain ⟨_, _, _, _, _, rfl⟩ := submitReturn_some h
  case' submitGiveUp => obtain ⟨_, _, _, _, rfl⟩ := submitGiveUp_some h
  case' applyTake => obtain ⟨_, _, rfl⟩ := applyTake_some h
  case' applyRun => obtain ⟨_, _, rfl⟩ := applyRun_some h
  all_goals constructor <;> intro ha <;> first | rfl | cases ha

/-! ## The requests of a leader -/

/-- **Every `AppendEntries` call** was there with its request before the step, or is made by it. -/
theorem requests_step {a : Action N C} (h : step cfg cb s a = some s') {c' : AppendCall N C}
    (hc' : c' ∈ s'.appends) :
    (∃ c ∈ s.appends, ∃ phase, c' = { c with phase := phase }) ∨
    ∃ i n peer req nextIdx, a = .sendAppend i ∧ s.sends[i]? = some (.append n peer) ∧
      appendEntriesSnapshot cfg n (s.node n) peer = some (req, nextIdx) ∧
      c' = ⟨n, peer, nextIdx, req, .sent⟩ := by
  have hset : ∀ {i : Nat} {c : AppendCall N C} {phase : Phase AppendEntriesResponse},
      s.appends[i]? = some c → c' ∈ s.appends.set i { c with phase := phase } →
      ∃ c ∈ s.appends, ∃ phase, c' = { c with phase := phase } := by
    intro i c phase hi hmem
    rcases List.mem_or_eq_of_mem_set hmem with hmem | rfl
    · exact ⟨c', hmem, _, rfl⟩
    · exact ⟨c, List.mem_of_getElem? hi, _, rfl⟩
  cases ha : a.exchanges with
  | false =>
    rw [(frame_step h).appends ha] at hc'
    exact .inl ⟨c', hc', _, rfl⟩
  | true =>
    cases a with
    | sendAppend i =>
      obtain rfl | ⟨n, peer, req, nextIdx, hi, hreq, rfl⟩ := sendAppend_some h
      · exact .inl ⟨c', hc', _, rfl⟩
      · rcases List.mem_append.1 hc' with hc' | hc'
        · exact .inl ⟨c', hc', _, rfl⟩
        · exact .inr ⟨i, n, peer, req, nextIdx, rfl, hi, hreq, List.mem_singleton.1 hc'⟩
    | appendHandle i io =>
      obtain ⟨_, _, _, _, _, _, hi, _, rfl⟩ := appendHandle_some h
      exact .inl (hset hi hc')
    | appendReply i =>
      obtain ⟨_, _, _, _, _, hi, rfl⟩ := appendReply_some h
      exact .inl (hset hi hc')
    | _ => cases ha

/-! ## The transfers of snapshots -/

/-- The term of the stream is sampled: its first chunk is on the way. -/
def SnapPhase.started : SnapPhase → Bool
  | .loaded => false
  | _ => true

/-- The index of the snapshot that a holder of `snapMu` is installing. -/
def SnapJob.installs : SnapJob B → Option Nat
  | .install _ index _ _ | .installed _ index _ _ | .renamed _ index _ _ => some index
  | _ => none

/-- The call whose last chunk is being installed. -/
def SnapJob.call : SnapJob B → Option Nat
  | .install i _ _ _ | .installed i _ _ _ | .renamed i _ _ _ => some i
  | _ => none

omit [DecidableEq N] in
/-- What the first section of `handleInstallSnapshot` hands to the installer lies above the node's
own snapshot. -/
theorem handleInstallSnapshot_above {self : N} {now : Nat} {io : ChunkIo}
    {x x' : Node N C B} {req : InstallSnapshotRequest N B} {data : List B}
    (h : handleInstallSnapshot cfg self now io x req = (x', .install data)) :
    x.snapshotIndex ≤ req.lastIncludedIndex := by
  unfold handleInstallSnapshot at h
  dsimp only at h
  split_ifs at h with _ _ hidx
  · cases (Prod.mk.inj h).2
  · cases (Prod.mk.inj h).2
  · cases (Prod.mk.inj h).2
  · by_contra hlt
    exact hidx ⟨by simp only [Node.hearLeader]; omega, by simp only [Node.hearLeader]; omega⟩

/-- What a step does to the transfers: nothing, one begins, its term is sampled, or it moves on. -/
inductive SnapsStep (s : Cluster N C B S) (a : Action N C) (s' : Cluster N C B S) : Prop
  | same (h : s'.snaps = s.snaps)
  | load {n peer : N} {snap : Snapshot B} (hfile : (s.node n).snapshotFile = some snap)
      (h : s'.snaps = s.snaps ++ [⟨n, peer, snap, 0, 0, .loaded⟩])
  | sample {i : Nat} {c : SnapCall N B} (ha : a = .sampleTerm i) (hi : s.snaps[i]? = some c)
      (h : s'.snaps = s.snaps.set i
        { c with term := (s.node c.sender).currentTerm, phase := .sent })
  | move {i : Nat} {c : SnapCall N B} {offset : Nat} {phase : SnapPhase}
      (hi : s.snaps[i]? = some c)
      (hc : c.phase.started = true ∨ ∃ n j, s.snapMu n = some j ∧ j.call = some i)
      (hp : phase.started = true)
      (h : s'.snaps = s.snaps.set i { c with offset := offset, phase := phase })

/-- **Every step moves at most one transfer.** -/
theorem snaps_step {a : Action N C} (h : step cfg cb s a = some s') : SnapsStep s a s' := by
  -- a handler answers the transfer it holds `snapMu` for
  have hanswer : ∀ {t : Cluster N C B S} {n : N} {j : SnapJob B} {i : Nat}
      {r : InstallSnapshotResponse}, s.snapMu n = some j → j.call = some i →
      s' = t.answerChunk n i r → t.snaps = s.snaps → SnapsStep s a s' := by
    rintro t n j i r hj hi rfl ht
    cases hc : s.snaps[i]? with
    | none => exact .same (by simp only [Cluster.answerChunk, ht, hc])
    | some c =>
      have hset : (t.answerChunk n i r).snaps =
          s.snaps.set i { c with phase := .answered r } := by
        simp only [Cluster.answerChunk, ht, hc]
      exact .move hc (.inr ⟨n, j, hj, hi⟩) rfl hset
  cases ha : a.streams with
  | false => exact .same ((frame_step h).snaps ha)
  | true =>
    cases a with
    | loadSnapshot i =>
      obtain rfl | ⟨_, _, _, _, hfile, rfl⟩ := loadSnapshot_some h
      · exact .same rfl
      · exact .load hfile rfl
    | sampleTerm i =>
      obtain ⟨_, _, _, _, _, hi, rfl⟩ := sampleTerm_some h
      exact .sample rfl hi rfl
    | chunkHandle i io =>
      obtain ⟨_, _, _, _, _, _, _, hi, _, _, ⟨_, _, rfl⟩ | ⟨_, _, rfl⟩⟩ := chunkHandle_some h <;>
        exact .move hi (.inl rfl) rfl rfl
    | runInstaller n =>
      obtain ⟨_, _, _, _, hj, ⟨_, _, rfl⟩ | hs'⟩ := runInstaller_some h
      · exact .same rfl
      · exact hanswer hj rfl hs' rfl
    | renameSnapshot n ok =>
      obtain ⟨_, _, _, _, hj, ⟨_, _, rfl⟩ | hs'⟩ := renameSnapshot_some h
      · exact .same rfl
      · exact hanswer hj rfl hs' rfl
    | installEnd n walOk =>
      obtain ⟨_, _, _, _, _, hj, hs'⟩ := installEnd_some h
      exact hanswer hj rfl hs' rfl
    | chunkReply i =>
      obtain ⟨_, _, _, _, _, _, _, hi, hc, rfl⟩ := chunkReply_some h
      rcases hc with rfl | ⟨_, _, rfl⟩ | rfl <;> exact .move hi (.inl rfl) rfl rfl
    | snapshotDone i =>
      obtain ⟨_, _, _, _, _, hi, rfl⟩ := snapshotDone_some h
      exact .move hi (.inl rfl) rfl rfl
    | _ => cases ha

/-- Where a holder of `snapMu` comes from: it compacts the log, it goes on with the snapshot of the
holder before it, or it was just given one that lies above the node's own. -/
inductive JobStep (s s' : Cluster N C B S) (n : N) (j : SnapJob B) : Prop
  | compacts (hL : j.installs = none) (hi : j.call = none)
  | same {j₀ : SnapJob B} (hj : s.snapMu n = some j₀) (hL : j.installs = j₀.installs)
      (hi : j.call = j₀.call)
  | install {i L : Nat} {c : SnapCall N B} (hL : j.installs = some L) (hi : j.call = some i)
      (hc : s'.snaps[i]? = some c) (hp : c.phase.started = true)
      (habove : (s.node n).snapshotIndex ≤ L)

theorem jobs_step {a : Action N C} (h : step cfg cb s a = some s') :
    ∀ n j, s'.snapMu n = some j → JobStep s s' n j := by
  have hupdate : ∀ {n : N} {job : Option (SnapJob B)}, s'.snapMu = update s.snapMu n job →
      (∀ j, job = some j → JobStep s s' n j) → ∀ m j, s'.snapMu m = some j → JobStep s s' m j := by
    intro n job hm hjob
    rw [hm]
    exact (forall_update_iff _ fun m v => ∀ j, v = some j → JobStep s s' m j).2
      ⟨hjob, fun m _ j hj => .same hj rfl rfl⟩
  cases ha : a.holds with
  | false =>
    rw [(frame_step h).snapMu ha]
    exact fun n j hj => .same hj rfl rfl
  | true =>
    cases a with
    | chunkHandle i io =>
      obtain ⟨_, _, _, _, _, _, _, hi, _, hx, ⟨_, _, rfl⟩ | ⟨_, rfl, rfl⟩⟩ := chunkHandle_some h
      · exact fun n j hj => .same hj rfl rfl
      · refine hupdate rfl fun j hj => ?_
        cases hj
        exact .install rfl rfl (List.getElem?_set_self (List.getElem?_eq_some_iff.1 hi).1) rfl
          (handleInstallSnapshot_above hx)
    | runInstaller n =>
      obtain ⟨_, _, _, _, hj₀, ⟨_, _, rfl⟩ | rfl⟩ := runInstaller_some h
      · exact hupdate rfl fun j hj => by cases hj; exact .same hj₀ rfl rfl
      · exact hupdate rfl nofun
    | renameSnapshot n ok =>
      obtain ⟨_, _, _, _, hj₀, ⟨_, _, rfl⟩ | rfl⟩ := renameSnapshot_some h
      · exact hupdate rfl fun j hj => by cases hj; exact .same hj₀ rfl rfl
      · exact hupdate rfl nofun
    | installEnd n walOk =>
      obtain ⟨_, _, _, _, _, _, rfl⟩ := installEnd_some h
      exact hupdate rfl nofun
    | compactStart n =>
      obtain ⟨_, rfl⟩ := compactStart_some h
      exact hupdate rfl fun j hj => by cases hj; exact .compacts rfl rfl
    | compactCheck n =>
      obtain ⟨_, _, _, rfl⟩ := compactCheck_some h
      refine hupdate rfl fun j hj => ?_
      obtain ⟨_, _, rfl⟩ := map_eq_some_iff.1 hj
      exact .compacts rfl rfl
    | compactSave n ok =>
      obtain ⟨_, _, _, _, rfl | rfl⟩ := compactSave_some h
      · exact hupdate rfl fun j hj => by cases hj; exact .compacts rfl rfl
      · exact hupdate rfl nofun
    | compactEnd n walOk =>
      obtain ⟨_, _, _, _, rfl⟩ := compactEnd_some h
      exact hupdate rfl nofun
    | _ => cases ha

/-! ## The calls of `Submit` -/

/-- The phase that an action moves the call at position `k` on to. -/
inductive CallMove (cfg : Config N) (s : Cluster N C B S) (k : Nat) (c : SubmitCall N C) :
    Action N C → SubmitPhase C → Prop
  | persisted {ok : Bool} (hp : c.phase = .published) (hok : cfg.diskOk c.self ok = true) :
      CallMove cfg s k c (.submitPersist k ok) .persisted
  | failed {ok : Bool} (hp : c.phase = .published) (hok : cfg.diskOk c.self ok = false) :
      CallMove cfg s k c (.submitPersist k ok) .failed
  | waiting (hp : c.phase = .persisted) : CallMove cfg s k c (.submitCommit k) .waiting
  | rolledBack (hp : c.phase = .failed) :
      CallMove cfg s k c (.submitFail k)
        (.rolledBack ((s.node c.self).rolledBackEntry c.entry c.publishedLen))
  | acked (hp : c.phase = .waiting) (hi : c.entry.index ≤ (s.node c.self).commitIndex) :
      CallMove cfg s k c (.submitReturn k) .acked
  | gaveUp (hp : c.phase = .waiting) : CallMove cfg s k c (.submitGiveUp k) .gaveUp

/-- What a step does to the calls: nothing, one begins, or one moves on. -/
inductive SubmitsStep (cfg : Config N) (s : Cluster N C B S) (a : Action N C)
    (s' : Cluster N C B S) : Prop
  | same (h : s'.submits = s.submits)
  | publish (ha : a.publishes = true) {c : SubmitCall N C} (hc : c.phase = .published)
      (h : s'.submits = s.submits ++ [c])
  | move {k : Nat} {c : SubmitCall N C} {phase : SubmitPhase C} (hk : s.submits[k]? = some c)
      (hm : CallMove cfg s k c a phase) (h : s'.submits = s.submits.set k { c with phase := phase })

/-- **Every step moves at most one call**, and only from one phase to the next. -/
theorem submits_step {a : Action N C} (h : step cfg cb s a = some s') : SubmitsStep cfg s a s' := by
  have hsubmit : ∀ {t : Cluster N C B S} {n : N} {command : C} {origin : Option Nat},
      t.submits = s.submits → t.submit n command origin = some s' → a.publishes = true →
      SubmitsStep cfg s a s' := by
    intro t n command origin ht hs ha
    obtain ⟨_, rfl⟩ := submit_some hs
    exact .publish ha rfl (by rw [← ht])
  cases ha : a.moves with
  | false => exact .same ((frame_step h).submits ha)
  | true =>
    cases a with
    | submit n command => exact hsubmit rfl h rfl
    | propose n command =>
      obtain h | ⟨f, rfl⟩ := propose_some h
      · exact hsubmit rfl h rfl
      · exact .same rfl
    | forwardHandle i =>
      obtain ⟨t, _, _, _, _, ⟨f, rfl⟩, h⟩ | ⟨f, rfl⟩ := forwardHandle_some h
      · exact hsubmit (t := { s with forwards := f }) rfl h rfl
      · exact .same rfl
    | forwardReply i =>
      obtain ⟨f, rfl⟩ := forwardReply_some h
      exact .same rfl
    | submitPersist k ok =>
      obtain ⟨c, f, hk, hp, ⟨hok, rfl⟩ | ⟨hok, rfl⟩⟩ := submitPersist_some h
      · exact .move hk (.persisted hp hok) rfl
      · exact .move hk (.failed hp hok) rfl
    | submitCommit k =>
      obtain ⟨c, f, hk, hp, rfl⟩ := submitCommit_some h
      exact .move hk (.waiting hp) rfl
    | submitFail k =>
      obtain ⟨c, f, hk, hp, rfl⟩ := submitFail_some h
      exact .move hk (.rolledBack hp) rfl
    | submitReturn k =>
      obtain ⟨c, f, hk, hp, hi, rfl⟩ := submitReturn_some h
      exact .move hk (.acked hp hi) rfl
    | submitGiveUp k =>
      obtain ⟨c, f, hk, hp, rfl⟩ := submitGiveUp_some h
      exact .move hk (.gaveUp hp) rfl
    | _ => cases ha

omit [DecidableEq N] in
/-- A call that has rolled back moves no more. -/
theorem CallMove.not_rolledBack {c : SubmitCall N C} {a : Action N C} {phase : SubmitPhase C}
    (h : CallMove cfg s k c a phase) (r : Option (LogEntry C)) : c.phase ≠ .rolledBack r := by
  intro hr
  rcases h with ⟨hp, _⟩ | ⟨hp, _⟩ | hp | hp | ⟨hp, _⟩ | hp <;> cases hr.symm.trans hp

end MxKeys.Raft
