/-
# MxKeys.Raft.Applying — which steps reach the application.

Only the apply loop, the installer, compaction and the transfer of snapshots work on the state of
the application, on a snapshot or on `lastApplied`.  `cacheQuiet_step` says of all other steps,
once, that they leave these alone; an invariant about what has been applied is then a case analysis
over the actions of `touchesCache`.
-/
import MxKeys.Raft.LogView
import MxKeys.Raft.Sections

namespace MxKeys.Raft

variable {N C B S : Type*}

/-- Actions that work on the cache, on a snapshot or on `lastApplied`. -/
def touchesCache : Action N C → Bool
  | .loadSnapshot _ | .chunkHandle _ _ | .runInstaller _ | .renameSnapshot _ _ | .installEnd _ _
  | .compactStart _ | .compactCheck _ | .compactSave _ _ | .compactEnd _ _ | .applyTake _
  | .applyRun _ => true
  | _ => false

/-- The snapshots of a node and how far it has applied. -/
def cachePart (x : Node N C B) : Option (Snapshot B) × PendingSnapshot B × Nat × Nat :=
  (x.snapshotFile, x.pending, x.lastApplied, x.logOffset)

/-- Nothing changes for the application. -/
structure CacheQuiet (s s' : Cluster N C B S) : Prop where
  node : ∀ m, cachePart (s'.node m) = cachePart (s.node m)
  app : s'.app = s.app
  applying : s'.applying = s.applying
  snapMu : s'.snapMu = s.snapMu
  applied : s'.applied = s.applied

theorem cachePart_observeTerm (x : Node N C B) (term : Nat) :
    cachePart (x.observeTerm term) = cachePart x :=
  (congrArg cachePart (restands_observeTerm x term) :)

section

variable [DecidableEq N] {cfg : Config N} {cb : Callbacks C B S} {s s' : Cluster N C B S} {n : N}
  {x : Node N C B} {a : Action N C}

omit [DecidableEq N] in
theorem cachePart_handleAppendEntries (cfg : Config N) (self : N) (now : Nat) (io : AppendIo)
    (x : Node N C B) (req : AppendEntriesRequest N C) :
    cachePart (handleAppendEntries cfg self now io x req).1 = cachePart x := by
  rcases handleAppendEntries_eq cfg self now io x req with h | ⟨_, _, _, h⟩ <;> rw [h]
  rfl

theorem cachePart_appendEntriesReply (cfg : Config N) (self : N) (x : Node N C B) (peer : N)
    (req : AppendEntriesRequest N C) (nextIdx : Nat) (resp : AppendEntriesResponse) :
    cachePart (appendEntriesReply cfg self x peer req nextIdx resp) = cachePart x := by
  rcases appendEntriesReply_eq cfg self x peer req nextIdx resp with h | ⟨_, _, _, h⟩ <;> rw [h]
  · exact cachePart_observeTerm x resp.term
  · rfl

omit [DecidableEq N] in
theorem cachePart_submitRollback (x : Node N C B) (entry : LogEntry C) (len : Nat) :
    cachePart (submitRollback x entry len) = cachePart x := by
  unfold submitRollback
  split_ifs <;> rfl

theorem unmoved {α : Type*} (f : N → α) (n : N) : f = Function.update f n (f n) :=
  (Function.update_eq_self n f).symm

theorem Section.cachePart (ha : touchesCache a = false) (h : Section cfg s a n x) :
    cachePart x = cachePart (s.node n) := by
  cases h with
  | chunk | rename | finishInstall | saveSnapshot | finishCompact | apply => cases ha
  | @requestVote _ _ _ req =>
    have hkeep := restands_handleRequestVote (s.clock n) (s.node n) req
    exact (congrArg Raft.cachePart hkeep :)
  | voteReply | chunkReply => exact cachePart_observeTerm ..
  | appendEntries => exact cachePart_handleAppendEntries ..
  | appendReply => exact cachePart_appendEntriesReply ..
  | commit =>
    obtain ⟨c, hc, _⟩ := updateCommitIndex_eq cfg _ (s.node _)
    rw [hc]
    rfl
  | rollback => exact cachePart_submitRollback ..
  | campaign | elected | snapshotSent | publish | persist => rfl

/-- What was applied stays so. -/
theorem applied_mono (h : step cfg cb s a = some s') : s.applied ⊆ s'.applied := by
  cases ha : a.applies with
  | false =>
    rw [(frame_step h).applied ha]
    exact fun _ hp => hp
  | true =>
    cases a with
    | runInstaller n =>
      obtain ⟨_, _, _, _, _, ⟨_, _, rfl⟩ | rfl⟩ := runInstaller_some h <;> exact fun _ hp => hp
    | applyTake n =>
      obtain ⟨_, _, rfl⟩ := applyTake_some h
      exact fun _ hp => hp
    | applyRun n =>
      obtain ⟨_, _, rfl⟩ := applyRun_some h
      exact List.subset_cons_self _ _
    | _ => cases ha

omit [DecidableEq N] in
theorem not_touches (ha : touchesCache a = false) : a.holds = false ∧ a.applies = false := by
  cases a <;> first | exact ⟨rfl, rfl⟩ | cases ha

/-- **Elections, log replication and submission leave the cache alone.** -/
theorem cacheQuiet_step (ha : touchesCache a = false) (h : step cfg cb s a = some s') :
    CacheQuiet s s' where
  node := (step_node h).relate (R := fun _ x y => cachePart y = cachePart x) (fun _ => rfl)
    fun _ _ => Section.cachePart ha
  app := (frame_step h).app (not_touches ha).2
  applying := (frame_step h).applying (not_touches ha).2
  snapMu := (frame_step h).snapMu (not_touches ha).1
  applied := (frame_step h).applied (not_touches ha).2

end

end MxKeys.Raft
