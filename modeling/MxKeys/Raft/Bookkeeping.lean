/-
# MxKeys.Raft.Bookkeeping — the indices of a node, and what the apply loop passes over.

`indices_kept`: in every run, with writes that fail or not, `snapshotIndex`, `lastApplied`,
`commitIndex` and the end of the log stay in order, the commit index never goes down, and every
index that the apply loop has left behind was given to `onApply` or lies under a snapshot that the
installer took.  Three things have to hold for this that the code does not see to, and `KeepsBooks`
names them.

* A `Submit` whose persist has failed must not take an entry off the log.  `Submit` publishes first
  and persists later; in between the entry is replicated and committed like any other.
  `commit_past_log` is a run in which the rollback leaves the commit index above the end of the log.
* `Submit` must run `updateCommitIndex` on a node that is still the leader.
* `appendEntriesSnapshot` must find the peer's next entry in memory.  Whether it is there was asked
  in another critical section; after a compaction in between, the request has a `LeaderCommit` above
  its last entry, and such a request can take the commit index of the peer down.

The first two keep the cluster a refinement of the protocol, so a commit index points into the log;
with the third, a request never promises more than it carries (`Offers`).
-/
import MxKeys.Raft.Applying
import MxKeys.Raft.Safety
import MxKeys.Raft.Sections

namespace MxKeys.Raft

open MxKeys.Lib MxKeys.Consensus
open List Function

variable {N C B S : Type*}

/-! ## The conditions -/

/-- When `appendEntriesSnapshot` runs, the peer still needs no snapshot. -/
def SendsWindow (s : Cluster N C B S) : Action N C → Prop
  | .sendAppend i => ∀ n peer, s.sends[i]? = some (.append n peer) →
      needsSnapshotCatchUp (s.node n) peer = false
  | _ => True

/-- The steps under which the books are kept. -/
def KeepsBooks (s : Cluster N C B S) (a : Action N C) : Prop :=
  KeepsEntry s a ∧ CommitsAsLeader s a ∧ SendsWindow s a

/-- The provider reports an index that the application was given, by `onApply` or by the
installer. -/
structure Callbacks.Reports (cb : Callbacks C B S) : Prop where
  init : (cb.snapshotProvider cb.init).2 = 0
  onApply : ∀ st e, (cb.snapshotProvider (cb.onApply st e)).2 ≤
    max (cb.snapshotProvider st).2 e.index
  installer : ∀ st data index term st', cb.snapshotInstaller st data index term = some st' →
    (cb.snapshotProvider st').2 ≤ max (cb.snapshotProvider st).2 index

/-! ## The commit index goes up -/

section

variable {cfg : Config N} {cb : Callbacks C B S} {s s' : Cluster N C B S} {n : N}
  {x : Node N C B} {a : Action N C}

theorem commitIndex_observeTerm (x : Node N C B) (t : Nat) :
    (x.observeTerm t).commitIndex = x.commitIndex :=
  (congrArg Node.commitIndex (restands_observeTerm x t) :)

/-- Receiving a chunk moves no index. -/
theorem handleInstallSnapshot_indices (cfg : Config N) (self : N) (now : Nat) (io : ChunkIo)
    (x : Node N C B) (req : InstallSnapshotRequest N B) :
    (handleInstallSnapshot cfg self now io x req).1.commitIndex = x.commitIndex ∧
      (handleInstallSnapshot cfg self now io x req).1.lastApplied = x.lastApplied ∧
      (handleInstallSnapshot cfg self now io x req).1.logOffset = x.logOffset := by
  rcases handleInstallSnapshot_eq cfg self now io x req with h | ⟨_, h⟩ <;> rw [h] <;>
    exact ⟨rfl, rfl, rfl⟩

theorem commitIndex_compactFinish (x : Node N C B) (appliedIdx lastTerm : Nat) :
    (compactFinish x appliedIdx lastTerm).commitIndex = x.commitIndex := by
  unfold compactFinish
  split_ifs <;> rfl

theorem commitIndex_le_updateCommitIndex (cfg : Config N) (self : N) (x : Node N C B) :
    x.commitIndex ≤ (x.updateCommitIndex cfg self).commitIndex := by
  obtain ⟨c, heq, hc⟩ := updateCommitIndex_spec cfg self x
  rw [heq]
  show x.commitIndex ≤ c
  rcases hc with rfl | ⟨hlt, _⟩
  · exact le_rfl
  · exact le_of_lt hlt

theorem commitIndex_le_appendEntriesReply [DecidableEq N] (cfg : Config N) (self : N)
    (x : Node N C B) (peer : N) (req : AppendEntriesRequest N C) (nextIdx : Nat)
    (resp : AppendEntriesResponse) :
    x.commitIndex ≤ (appendEntriesReply cfg self x peer req nextIdx resp).commitIndex := by
  unfold appendEntriesReply
  split_ifs
  · exact le_of_eq (commitIndex_observeTerm x resp.term).symm
  · exact le_rfl
  · exact commitIndex_le_updateCommitIndex cfg self { x with
      nextIndex := update x.nextIndex peer (nextIdx + req.entries.length)
      matchIndex := update x.matchIndex peer (nextIdx + req.entries.length - 1) }
  · exact le_rfl
  · exact le_rfl

/-- A request that promises no more than it carries. -/
def AppendEntriesRequest.Covers (req : AppendEntriesRequest N C) : Prop :=
  req.leaderCommit ≤ req.prevLogIndex + req.entries.length

variable {req : AppendEntriesRequest N C}

theorem commitIndex_le_handleAppendEntries (cfg : Config N) (self : N) (now : Nat) (io : AppendIo)
    (x : Node N C B) (hreq : req.Covers) :
    x.commitIndex ≤ (handleAppendEntries cfg self now io x req).1.commitIndex := by
  unfold handleAppendEntries
  dsimp only
  split_ifs
  · exact le_rfl
  · exact le_rfl
  · obtain ⟨log, wal, honly⟩ := takeEntries_onlyLog req.entries
      (x.hearLeader now req.term req.leaderId req.leaderAddress) req.prevLogIndex 0
      (fun i => cfg.diskOk self (io.truncate i)) (fun i => cfg.diskOk self (io.persist i))
    split
    · rename_i y hy
      rw [hy] at honly
      rw [show y = _ from honly]
      exact le_rfl
    · rename_i y hy
      rw [hy] at honly
      rw [show y = _ from honly]
      show x.commitIndex ≤ (Node.followCommit _ _ _).commitIndex
      unfold Node.followCommit
      unfold AppendEntriesRequest.Covers at hreq
      split_ifs with hlt hlast
      · exact le_of_lt hlt
      · -- the last new entry is the leader's commit index
        show x.commitIndex ≤ req.prevLogIndex + req.entries.length
        have : x.commitIndex < req.leaderCommit := hlt
        omega
      · exact le_rfl

/-- **No section takes the commit index down**, given that requests cover what they promise. -/
theorem Section.commitIndex_le [DecidableEq N] (h : Section cfg s a n x)
    (hreqs : ∀ c ∈ s.appends, c.req.Covers) : (s.node n).commitIndex ≤ x.commitIndex := by
  cases h with
  | @requestVote _ _ _ req =>
    have hkeep := restands_handleRequestVote (s.clock n) (s.node n) req
    exact (congrArg Node.commitIndex hkeep :).ge
  | voteReply | chunkReply => exact le_of_eq (commitIndex_observeTerm _ _).symm
  | appendEntries io hi =>
    exact commitIndex_le_handleAppendEntries _ _ _ _ _ (hreqs _ (mem_of_getElem? hi))
  | appendReply => exact commitIndex_le_appendEntriesReply _ _ _ _ _ _ _
  | chunk => exact le_of_eq (handleInstallSnapshot_indices _ _ _ _ _ _).1.symm
  | finishInstall => exact le_max_left _ _
  | finishCompact => exact le_of_eq (commitIndex_compactFinish _ _ _).symm
  | commit => exact commitIndex_le_updateCommitIndex _ _ _
  | rollback =>
    unfold submitRollback
    split_ifs <;> exact le_rfl
  | campaign | elected | rename | snapshotSent | saveSnapshot | publish | persist | apply =>
    exact le_rfl

/-! ## Requests cover what they promise -/

/-- A leader knows the next index of each of its peers. -/
def NextKnown (cfg : Config N) (n : N) (x : Node N C B) : Prop :=
  x.state = .leader → ∀ p ∈ cfg.peers n, 1 ≤ x.nextIndex p

variable {y : Node N C B}

theorem NextKnown.frame (h : NextKnown cfg n x) (hs : y.state = .follower ∨ y.state = x.state)
    (hn : y.nextIndex = x.nextIndex) :
    NextKnown cfg n y := by
  intro hl p hp
  rcases hs with hs | hs
  · rw [hs] at hl
    cases hl
  · rw [hn]
    exact h (hs ▸ hl) p hp

variable {peer : N}

theorem NextKnown.set [DecidableEq N] (h : NextKnown cfg n x) (hs : y.state = x.state) {i : Nat}
    (hi : 1 ≤ i) (hn : y.nextIndex = update x.nextIndex peer i) : NextKnown cfg n y := by
  intro hl
  rw [hn]
  exact (forall_update_iff _ fun p i => p ∈ _ → 1 ≤ i).2
    ⟨fun _ => hi, fun p _ => h (hs ▸ hl) p⟩

theorem NextKnown.observeTerm (h : NextKnown cfg n x) (t : Nat) :
    NextKnown cfg n (x.observeTerm t) := by
  unfold Node.observeTerm
  split_ifs
  · exact h.frame (.inl rfl) rfl
  · exact h

theorem NextKnown.handleRequestVote [DecidableEq N] (h : NextKnown cfg n x) (now : Nat)
    (req : RequestVoteRequest N) : NextKnown cfg n (handleRequestVote now x req).1 := by
  unfold MxKeys.Raft.handleRequestVote
  dsimp only
  split_ifs
  · exact h
  · exact (h.observeTerm req.term).frame (.inr rfl) rfl
  · exact h.observeTerm req.term

theorem NextKnown.appendEntriesReply [DecidableEq N] (h : NextKnown cfg n x)
    (hp : peer ∈ cfg.peers n) (req : AppendEntriesRequest N C) (nextIdx : Nat)
    (resp : AppendEntriesResponse) :
    NextKnown cfg n (appendEntriesReply cfg n x peer req nextIdx resp) := by
  unfold MxKeys.Raft.appendEntriesReply
  split_ifs with hterm hskip hok hnext
  · exact h.observeTerm resp.term
  · exact h
  · obtain ⟨c, hc, _⟩ := updateCommitIndex_eq cfg n { x with
      nextIndex := update x.nextIndex peer (nextIdx + req.entries.length)
      matchIndex := update x.matchIndex peer (nextIdx + req.entries.length - 1) }
    rw [hc]
    simp only [not_or, not_not] at hskip
    have hpos := h hskip.1 peer hp
    exact h.set rfl (i := nextIdx + req.entries.length) (by omega) rfl
  · exact h.set rfl (i := x.nextIndex peer - 1) (by omega) rfl
  · exact h

/-- Calls and tasks of `sendAppendEntries` are for peers. -/
structure Offers (cfg : Config N) (s : Cluster N C B S) : Prop where
  next : ∀ n, NextKnown cfg n (s.node n)
  tasks : ∀ n p, .append n p ∈ s.sends → p ∈ cfg.peers n
  calls : ∀ c ∈ s.appends, c.peer ∈ cfg.peers c.sender ∧ c.req.Covers

theorem Section.nextKnown [DecidableEq N] (h : Section cfg s a n x) (ho : Offers cfg s) :
    NextKnown cfg n x := by
  have hn := ho.next n
  cases h with
  | campaign => nofun
  | requestVote => exact hn.handleRequestVote _ _
  | voteReply | chunkReply => exact hn.observeTerm _
  | elected =>
    intro _ p hp
    show 1 ≤ if p ∈ cfg.peers n then (s.node n).logLen + 1 else (s.node n).nextIndex p
    rw [if_pos hp]
    exact Nat.le_add_left 1 _
  | @appendEntries _ io _ _ _ req =>
    rcases handleAppendEntries_eq cfg n (s.clock n) io (s.node n) req with h | ⟨_, _, _, h⟩ <;>
      rw [h]
    · exact hn
    · exact hn.frame (.inl rfl) rfl
  | appendReply hi => exact hn.appendEntriesReply (ho.calls _ (mem_of_getElem? hi)).1 _ _ _
  | @chunk _ io _ _ req =>
    rcases handleInstallSnapshot_eq cfg n (s.clock n) io (s.node n) _ with h | ⟨_, h⟩ <;> rw [h]
    · exact hn
    · exact hn.frame (.inl rfl) rfl
  | snapshotSent => exact hn.set rfl (Nat.le_add_left 1 _) rfl
  | finishCompact =>
    unfold compactFinish
    split_ifs <;> exact hn.frame (.inr rfl) rfl
  | commit =>
    obtain ⟨c, hc, _⟩ := updateCommitIndex_eq cfg _ (s.node _)
    rw [hc]
    exact hn.frame (.inr rfl) rfl
  | rollback =>
    unfold submitRollback
    split_ifs
    · exact hn.frame (.inr rfl) rfl
    · exact hn
  | rename | finishInstall | saveSnapshot | publish | persist | apply =>
    exact hn.frame (.inr rfl) rfl

/-- A request built while the peer needs no snapshot carries the log to its end. -/
theorem appendEntriesSnapshot_covers {nextIdx : Nat}
    (h : appendEntriesSnapshot cfg n x peer = some (req, nextIdx))
    (hwin : needsSnapshotCatchUp x peer = false) (hnext : NextKnown cfg n x)
    (hp : peer ∈ cfg.peers n) (hb : x.snapshotIndex = x.logOffset) (hc : x.commitIndex ≤ x.logLen) :
    req.Covers := by
  unfold appendEntriesSnapshot at h
  split_ifs at h with hl
  cases h
  have hpos := hnext hl peer hp
  have hoff : x.logOffset < x.nextIndex peer := by
    simp only [needsSnapshotCatchUp, hl, decide_true, Bool.true_and, Bool.and_eq_false_iff,
      bne_eq_false_iff_eq, decide_eq_false_iff_not] at hwin
    omega
  unfold AppendEntriesRequest.Covers
  unfold Node.logLen at hc
  dsimp only
  rcases lt_or_ge (x.logOffset + x.log.length) (x.nextIndex peer) with hgt | hle
  · omega
  · rw [Node.sliceIndex, offsetToSlot_of_lt hoff hle]
    dsimp only
    rw [length_drop]
    omega

/-- A task of `sendAppendEntries` is started for a peer. -/
theorem append_task [DecidableEq N] (hs : step cfg cb s a = some s') {p : N}
    (hmem : .append n p ∈ s'.sends) :
    .append n p ∈ s.sends ∨ p ∈ cfg.peers n := by
  cases ha : a.plans with
  | false =>
    rw [(step_node hs).sends ha] at hmem
    exact .inl hmem
  | true =>
    cases a with
    | sendStart m q =>
      obtain ⟨t, ht, hq, rfl⟩ := sendStart_some hs
      rcases mem_append.1 hmem with hmem | hmem
      · exact .inl hmem
      · obtain rfl := mem_singleton.1 hmem
        rcases ht with ht | ht <;> cases ht
        exact .inr hq
    | sendAppend i =>
      have hset : s'.sends = s.sends.set i .started := by
        obtain rfl | ⟨_, _, _, _, _, _, rfl⟩ := sendAppend_some hs <;> rfl
      rw [hset] at hmem
      exact .inl ((mem_or_eq_of_mem_set hmem).resolve_right nofun)
    | loadSnapshot i =>
      have hset : s'.sends = s.sends.set i .started := by
        obtain rfl | ⟨_, _, _, _, _, rfl⟩ := loadSnapshot_some hs <;> rfl
      rw [hset] at hmem
      exact .inl ((mem_or_eq_of_mem_set hmem).resolve_right nofun)
    | _ => cases ha

theorem offers_init (cfg : Config N) (cb : Callbacks C B S) :
    Offers cfg (Cluster.init cb : Cluster N C B S) :=
  ⟨fun _ => nofun, nofun, nofun⟩

/-- **One step keeps requests covering.** -/
theorem Offers.step [DecidableEq N] (ho : Offers cfg s) (hlay : LayoutInv s)
    (hc : ∀ n, (s.node n).commitIndex ≤ (s.node n).logLen) (hwin : SendsWindow s a)
    (hs : step cfg cb s a = some s') : Offers cfg s' := by
  have hruns := step_node hs
  refine ⟨hruns.relate (R := fun n _ y => NextKnown cfg n y) ho.next
    fun n x hx => hx.nextKnown ho, ?_, ?_⟩
  · exact fun n p hmem => (append_task hs hmem).elim (ho.tasks n p) id
  · intro c' hc'
    obtain ⟨c, hmem, _, rfl⟩ | ⟨_, n, peer, _, _, rfl, hi, hreq, rfl⟩ := requests_step hs hc'
    · exact ho.calls c hmem
    · have hp := ho.tasks n peer (mem_of_getElem? hi)
      exact ⟨hp, appendEntriesSnapshot_covers hreq (hwin n peer hi) (ho.next n) hp
        (hlay.boundary n) (hc n)⟩

/-! ## What the apply loop has left behind -/

/-- In one of the states `ts`, the installer of `n` has taken a snapshot that covers index `i`. -/
def Covered (ts : List (Cluster N C B S)) (n : N) (i : Nat) : Prop :=
  ∃ u ∈ ts, ∃ call index term data, u.snapMu n = some (.installed call index term data) ∧ i ≤ index

/-- Index `i` is not above `lastApplied`, or an installed snapshot covers it. -/
def Passed (ts : List (Cluster N C B S)) (n : N) (lastApplied i : Nat) : Prop :=
  i ≤ lastApplied ∨ Covered ts n i

/-- What node `n` had at index `i` was given to `onApply`, or an installed snapshot covers `i`. -/
def Accounted (ts : List (Cluster N C B S)) (n : N) (applied : List (N × LogEntry C))
    (applying : Option (LogEntry C)) (i : Nat) : Prop :=
  (∃ e, (∃ u ∈ ts, (u.node n).entryAt i = some e) ∧ ((n, e) ∈ applied ∨ applying = some e)) ∨
    Covered ts n i

/-- What holds of the index that the holder of `snapMu` works with. -/
def JobBooks (ts : List (Cluster N C B S)) (n : N) (x : Node N C B) : SnapJob B → Prop
  | .install _ _ _ _ => True
  | .installed _ index _ _ | .renamed _ index _ _ => Covered ts n index
  | .provided _ i => Passed ts n x.lastApplied i
  | .validated _ i _ | .saved i _ => i ≤ x.commitIndex ∧ Passed ts n x.lastApplied i

/-- The books of a node. -/
structure Books (cb : Callbacks C B S) (ts : List (Cluster N C B S)) (n : N)
    (applied : List (N × LogEntry C)) (x : Node N C B) (st : S) (applying : Option (LogEntry C))
    (job : Option (SnapJob B)) : Prop where
  offset_le : x.logOffset ≤ x.commitIndex
  applied_le : x.lastApplied ≤ x.commitIndex
  offset : Passed ts n x.lastApplied x.logOffset
  provider : Passed ts n x.lastApplied (cb.snapshotProvider st).2
  job : ∀ j, job = some j → JobBooks ts n x j
  taken : ∀ e, applying = some e → e.index ≤ x.lastApplied
  accounted : ∀ i, 1 ≤ i → i ≤ x.lastApplied → Accounted ts n applied applying i

variable {ts ts' : List (Cluster N C B S)} {applied applied' : List (N × LogEntry C)} {st st' : S}
  {applying : Option (LogEntry C)} {job job' : Option (SnapJob B)} {i k : Nat}

theorem Covered.mono (h : Covered ts n i) (hts : ts ⊆ ts') (hk : k ≤ i) : Covered ts' n k := by
  obtain ⟨v, hv, call, index, term, data, hjob, hi⟩ := h
  exact ⟨v, hts hv, call, index, term, data, hjob, le_trans hk hi⟩

variable {l : Nat}

theorem Passed.mono {l' : Nat} (h : Passed ts n l i) (hts : ts ⊆ ts') (hl : l ≤ l') (hk : k ≤ i) :
    Passed ts' n l' k :=
  h.imp (fun hi => le_trans hk (hi.trans hl)) fun hc => hc.mono hts hk

theorem Passed.max (h : Passed ts n l i) (h' : Passed ts n l k) :
    Passed ts n l (max i k) := by
  rcases le_total i k with hik | hik
  · rwa [max_eq_right hik]
  · rwa [max_eq_left hik]

theorem Accounted.mono (h : Accounted ts n applied applying i) (hts : ts ⊆ ts')
    (hd : applied ⊆ applied') : Accounted ts' n applied' applying i := by
  rcases h with ⟨e, ⟨v, hv, he⟩, hgiven⟩ | hc
  · exact .inl ⟨e, ⟨v, hts hv, he⟩, hgiven.imp_left fun h => hd h⟩
  · exact .inr (hc.mono hts le_rfl)

theorem JobBooks.mono {j : SnapJob B} (h : JobBooks ts n x j) (hts : ts ⊆ ts')
    (hc : x.commitIndex ≤ y.commitIndex) (hl : x.lastApplied ≤ y.lastApplied) :
    JobBooks ts' n y j := by
  cases j with
  | install => trivial
  | installed | renamed => exact Covered.mono h hts le_rfl
  | provided => exact Passed.mono h hts hl le_rfl
  | validated | saved => exact ⟨h.1.trans hc, h.2.mono hts hl le_rfl⟩

namespace Books

/-- Time passes, and the commit index may go up. -/
theorem mono {y : Node N C B} (h : Books cb ts n applied x st applying job) (hts : ts ⊆ ts')
    (hc : x.commitIndex ≤ y.commitIndex) (hl : y.lastApplied = x.lastApplied)
    (ho : y.logOffset = x.logOffset) (hd : applied ⊆ applied') :
    Books cb ts' n applied' y st applying job where
  offset_le := by
    rw [ho]
    exact h.offset_le.trans hc
  applied_le := by
    rw [hl]
    exact h.applied_le.trans hc
  offset := by
    rw [hl, ho]
    exact h.offset.mono hts le_rfl le_rfl
  provider := by
    rw [hl]
    exact h.provider.mono hts le_rfl le_rfl
  job := fun j hj => (h.job j hj).mono hts hc hl.symm.le
  taken := by
    rw [hl]
    exact h.taken
  accounted := by
    rw [hl]
    exact fun i h1 hi => (h.accounted i h1 hi).mono hts hd

/-- `snapMu` is taken, passed on or released. -/
theorem setJob (h : Books cb ts n applied x st applying job)
    (hjob : ∀ j, job' = some j → JobBooks ts n x j) : Books cb ts n applied x st applying job' :=
  ⟨h.offset_le, h.applied_le, h.offset, h.provider, hjob, h.taken, h.accounted⟩

theorem release (h : Books cb ts n applied x st applying job) :
    Books cb ts n applied x st applying none :=
  h.setJob nofun

/-- The snapshot file is replaced. -/
theorem setSnapshotFile (h : Books cb ts n applied x st applying job) (file : Option (Snapshot B)) :
    Books cb ts n applied (x.setSnapshotFile file) st applying job :=
  h.mono (fun _ hu => hu) le_rfl rfl rfl fun _ hp => hp

variable {index : Nat}

/-- The installer takes a snapshot. -/
theorem runInstaller (h : Books cb ts n applied x st applying job)
    (hst : (cb.snapshotProvider st').2 ≤ max (cb.snapshotProvider st).2 index)
    (hc : Covered ts n index) : Books cb ts n applied x st' applying job :=
  ⟨h.offset_le, h.applied_le, h.offset,
    (h.provider.max (.inr hc)).mono (fun _ hu => hu) le_rfl hst, h.job, h.taken,
    h.accounted⟩

/-- The last section of `handleInstallSnapshot`. -/
theorem finishInstall (h : Books cb ts n applied x st applying none) (hc : Covered ts n index)
    (term : Nat) (wal : List (LogEntry C)) :
    Books cb ts n applied ((finishInstall x index term).setWal wal) st applying none where
  offset_le := by
    show max x.logOffset index ≤ max x.commitIndex index
    have := h.offset_le
    omega
  applied_le := by
    show max x.lastApplied index ≤ max x.commitIndex index
    have := h.applied_le
    omega
  offset := (h.offset.max (.inr hc)).mono (fun _ hu => hu) (le_max_left _ _) le_rfl
  provider := h.provider.mono (fun _ hu => hu) (le_max_left _ _) le_rfl
  job := nofun
  taken := fun e he => le_trans (h.taken e he) (le_max_left _ _)
  accounted := by
    intro i h1 hi
    change i ≤ max x.lastApplied index at hi
    -- what the loop had not reached is under the snapshot
    rcases lt_or_ge x.lastApplied i with hlt | hge
    · exact .inr (hc.mono (fun _ hu => hu) (by omega))
    · exact h.accounted i h1 hge

/-- The last section of `CompactLog`. -/
theorem compactFinish (h : Books cb ts n applied x st applying none) {appliedIdx : Nat}
    (hc : appliedIdx ≤ x.commitIndex) (hp : Passed ts n x.lastApplied appliedIdx) (term : Nat)
    (wal : List (LogEntry C)) :
    Books cb ts n applied ((compactFinish x appliedIdx term).setWal wal) st applying none := by
  unfold MxKeys.Raft.compactFinish
  by_cases hskip : appliedIdx ≤ x.snapshotIndex
  · rw [if_pos hskip]
    exact ⟨h.offset_le, h.applied_le, h.offset, h.provider, nofun, h.taken, h.accounted⟩
  · rw [if_neg hskip]
    exact ⟨hc, h.applied_le, hp, h.provider, nofun, h.taken, h.accounted⟩

/-- A round of the apply loop: the entry is in memory, or compaction has dropped it together with
all that an installed snapshot covers. -/
theorem applyTake (h : Books cb ts n applied x st none job) (hx : x.Indexed)
    (hlt : x.lastApplied < x.commitIndex) (hlen : x.commitIndex ≤ x.logLen)
    {u : Cluster N C B S} (hu : u ∈ ts) (hux : u.node n = x) :
    Books cb ts n applied x.bumpApplied st (x.entryAt (x.lastApplied + 1)) job where
  offset_le := h.offset_le
  applied_le := hlt
  offset := h.offset.mono (fun _ hu => hu) (Nat.le_succ _) le_rfl
  provider := h.provider.mono (fun _ hu => hu) (Nat.le_succ _) le_rfl
  job := fun j hj => (h.job j hj).mono (fun _ hu => hu) le_rfl (Nat.le_succ _)
  taken := by
    intro e he
    obtain ⟨_, _, hslot⟩ := entryAt_some he
    have := hx _ e hslot
    show e.index ≤ x.lastApplied + 1
    omega
  accounted := by
    intro i h1 hi
    change i ≤ x.lastApplied + 1 at hi
    rcases lt_or_ge x.lastApplied i with hnew | hold
    · obtain rfl : i = x.lastApplied + 1 := by omega
      rcases lt_or_ge x.logOffset (x.lastApplied + 1) with hwin | hcut
      · unfold Node.logLen at hlen
        obtain ⟨e, he⟩ := exists_getElem? (l := x.log)
          (k := x.lastApplied + 1 - x.logOffset - 1) (by omega)
        rw [← entryAt_of_lt hwin] at he
        exact .inl ⟨e, ⟨u, hu, by rw [hux]; exact he⟩, .inr he⟩
      · refine .inr ?_
        rcases h.offset with hle | hc
        · omega
        · exact hc.mono (fun _ hu => hu) hcut
    · rcases h.accounted i h1 hold with ⟨e, hu, hgiven | hnone⟩ | hc
      · exact .inl ⟨e, hu, .inl hgiven⟩
      · cases hnone
      · exact .inr hc

theorem applyRun (hcb : cb.Reports) {e : LogEntry C}
    (h : Books cb ts n applied x st (some e) job) :
    Books cb ts n ((n, e) :: applied) x (cb.onApply st e) none job where
  offset_le := h.offset_le
  applied_le := h.applied_le
  offset := h.offset
  provider := (h.provider.max (.inl (h.taken e rfl))).mono (fun _ hu => hu) le_rfl
    (hcb.onApply st e)
  job := h.job
  taken := nofun
  accounted := by
    intro i h1 hi
    rcases h.accounted i h1 hi with ⟨f, hu, hgiven | hnow⟩ | hc
    · exact .inl ⟨f, hu, .inl (mem_cons_of_mem _ hgiven)⟩
    · cases hnow
      exact .inl ⟨e, hu, .inl mem_cons_self⟩
    · exact .inr hc

end Books

/-! ## The cluster -/

/-- The books of node `n` in a state. -/
def BooksAt (cb : Callbacks C B S) (ts : List (Cluster N C B S)) (s : Cluster N C B S) (n : N) :
    Prop :=
  Books cb ts n s.applied (s.node n) (s.app n) (s.applying n) (s.snapMu n)

/-- Nothing reaches the application. -/
theorem BooksAt.quiet {m : N} (h : BooksAt cb ts s m) (hq : CacheQuiet s s')
    (hc : (s.node m).commitIndex ≤ (s'.node m).commitIndex) : BooksAt cb (s' :: ts) s' m := by
  unfold BooksAt
  rw [hq.app, hq.applying, hq.snapMu, hq.applied]
  have hpart := hq.node m
  exact Books.mono h (subset_cons_self _ _) hc (congrArg (fun p => p.2.2.1) hpart)
    (congrArg (fun p => p.2.2.2) hpart) fun _ hp => hp

/-- One node moves; each part of it is set or stays. -/
theorem booksAt_move [DecidableEq N] (n : N) (h : ∀ m, BooksAt cb ts s m)
    (hx : Books cb (s' :: ts) n s'.applied x st applying job)
    (hnode : s'.node = update s.node n x := by first | rfl | exact unmoved _ n)
    (happ : s'.app = update s.app n st := by first | rfl | exact unmoved _ n)
    (hap : s'.applying = update s.applying n applying := by first | rfl | exact unmoved _ n)
    (hm : s'.snapMu = update s.snapMu n job := by first | rfl | exact unmoved _ n)
    (hd : s.applied ⊆ s'.applied := by first | exact fun _ hp => hp | exact subset_cons_self _ _)
    (m : N) : BooksAt cb (s' :: ts) s' m := by
  unfold BooksAt
  rw [hnode, happ, hap, hm]
  by_cases hmn : m = n
  · subst hmn
    simpa only [update_self] using hx
  · simp only [update_of_ne hmn]
    exact Books.mono (h m) (subset_cons_self _ _) le_rfl rfl rfl hd

/-- **One step keeps the books.** -/
theorem booksAt_step [DecidableEq N] (hcb : cb.Reports) (h : ∀ m, BooksAt cb ts s m) (hts : s ∈ ts)
    (hlay : LayoutInv s) (hlen : ∀ m, (s.node m).commitIndex ≤ (s.node m).logLen)
    (hup : ∀ m, (s.node m).commitIndex ≤ (s'.node m).commitIndex)
    (hs : step cfg cb s a = some s') : ∀ m, BooksAt cb (s' :: ts) s' m := by
  have hsub : ts ⊆ s' :: ts := subset_cons_self _ _
  cases ha : touchesCache a with
  | false => exact fun m => (h m).quiet (cacheQuiet_step ha hs) (hup m)
  | true =>
    -- the books of the node that moves, with the new state among the states seen
    have hnow : ∀ n, Books cb (s' :: ts) n s.applied (s.node n) (s.app n) (s.applying n)
        (s.snapMu n) := fun n =>
      Books.mono (h n) hsub le_rfl rfl rfl fun _ hp => hp
    cases a with
    | loadSnapshot i =>
      obtain rfl | ⟨_, _, _, _, _, rfl⟩ := loadSnapshot_some hs
      · exact hnow
      · exact hnow
    | chunkHandle i io =>
      obtain ⟨_, n, _, _, _, x, _, _, hmu, hx, hout⟩ := chunkHandle_some hs
      obtain ⟨hc, hl, ho⟩ := handleInstallSnapshot_indices cfg n (s.clock n) io (s.node n) _
      rw [hx] at hc hl ho
      have hn : Books cb (s' :: ts) n s.applied x (s.app n) (s.applying n) (s.snapMu n) :=
        (hnow n).mono (fun _ hu => hu) hc.symm.le hl ho fun _ hp => hp
      rcases hout with ⟨r, _, rfl⟩ | ⟨data, _, rfl⟩
      · exact booksAt_move n h hn
      · refine booksAt_move n h (hn.setJob ?_)
        rintro j ⟨⟩
        trivial
    | runInstaller n =>
      obtain ⟨i, index, term, data, hmu, ⟨st, hst, heq⟩ | rfl⟩ := runInstaller_some hs
      · have hmu' : s'.snapMu n = some (.installed i index term data) := by
          rw [heq]
          exact update_self ..
        have hc : Covered (s' :: ts) n index :=
          ⟨s', mem_cons_self, i, index, term, data, hmu', le_refl _⟩
        subst heq
        refine booksAt_move n h ?_
        refine ((hnow n).runInstaller (hcb.installer _ _ _ _ _ hst) hc).setJob ?_
        rintro j ⟨⟩
        exact hc
      · exact booksAt_move n h (hnow n).release
    | renameSnapshot n ok =>
      obtain ⟨i, index, term, data, hmu, ⟨file, _, rfl⟩ | rfl⟩ := renameSnapshot_some hs
      · refine booksAt_move n h ?_
        have hjob := (hnow n).job _ hmu
        refine ((hnow n).setSnapshotFile _).setJob ?_
        rintro j ⟨⟩
        exact hjob
      · exact booksAt_move n h (hnow n).release
    | installEnd n walOk =>
      obtain ⟨i, index, term, data, wal, hmu, rfl⟩ := installEnd_some hs
      exact booksAt_move n h ((hnow n).release.finishInstall ((hnow n).job _ hmu) term wal)
    | compactStart n =>
      have hs : s.compactStart cfg cb n = some s' := hs
      obtain ⟨_, rfl⟩ := compactStart_some hs
      refine booksAt_move n h ((hnow n).setJob ?_)
      rintro j ⟨⟩
      exact (hnow n).provider
    | compactCheck n =>
      obtain ⟨data, appliedIdx, hmu, rfl⟩ := compactCheck_some hs
      refine booksAt_move n h ((hnow n).setJob fun j hj => ?_)
      obtain ⟨term, hterm, rfl⟩ := Option.map_eq_some_iff.1 hj
      exact ⟨compactValidate_le hterm, (hnow n).job _ hmu⟩
    | compactSave n ok =>
      obtain ⟨data, appliedIdx, term, hmu, rfl | rfl⟩ := compactSave_some hs
      · refine booksAt_move n h ?_
        have hjob := (hnow n).job _ hmu
        refine ((hnow n).setSnapshotFile _).setJob ?_
        rintro j ⟨⟩
        exact hjob
      · exact booksAt_move n h (hnow n).release
    | compactEnd n walOk =>
      obtain ⟨appliedIdx, term, wal, hmu, rfl⟩ := compactEnd_some hs
      have hjob := (hnow n).job _ hmu
      exact booksAt_move n h ((hnow n).release.compactFinish hjob.1 hjob.2 term wal)
    | applyTake n =>
      obtain ⟨hap, hlt, rfl⟩ := applyTake_some hs
      have hn := hnow n
      rw [hap] at hn
      exact booksAt_move n h (hn.applyTake (hlay.indexed n) hlt (hlen n) (hsub hts) rfl)
    | applyRun n =>
      obtain ⟨e, hap, rfl⟩ := applyRun_some hs
      have hn := hnow n
      rw [hap] at hn
      exact booksAt_move n h (hn.applyRun hcb)
    | _ => cases ha

end

/-! ## The result -/

section

variable [Fintype N] [DecidableEq N] {cfg : Config N} {cb : Callbacks C B S}
  {g : History N (LogEntry C)} {ts : List (Cluster N C B S)} {s s' : Cluster N C B S} {n : N}
  {a : Action N C}

/-- A commit index points into the log. -/
theorem Refines.commitIndex_le (h : Refines cfg g s) (n : N) :
    (s.node n).commitIndex ≤ (s.node n).logLen := by
  rw [(h.sim.node n).logLen_eq h.sim.sound]
  exact h.sim.sound.inv.known_le_length (h.sim.node n).commit

/-- What holds at the end of a trace. -/
structure Booked (cfg : Config N) (cb : Callbacks C B S) (g : History N (LogEntry C))
    (ts : List (Cluster N C B S)) (s : Cluster N C B S) : Prop where
  refines : Refines cfg g s
  offers : Offers cfg s
  last : s ∈ ts
  books : ∀ n, BooksAt cb ts s n
  rising : ∀ n, ∀ u ∈ ts, (u.node n).commitIndex ≤ (s.node n).commitIndex

theorem booked_init (cfg : Config N) (hcb : cb.Reports) :
    ∃ g, Booked cfg cb g [Cluster.init cb] (Cluster.init cb : Cluster N C B S) := by
  refine ⟨_, refines_init cfg cb, offers_init cfg cb, mem_singleton_self _, fun n => ?_, ?_⟩
  · refine ⟨le_refl _, le_refl _, .inl le_rfl, .inl ?_, nofun, nofun, ?_⟩
    · exact hcb.init.le
    · intro i h1 hi
      exact absurd (h1.trans hi) (Nat.not_succ_le_zero 0)
  · intro n u hu
    rw [mem_singleton.1 hu]

theorem Booked.step (h : Booked cfg cb g ts s) (hcb : cb.Reports) (hok : KeepsBooks s a)
    (hs : step cfg cb s a = some s') : ∃ g', Booked cfg cb g' (s' :: ts) s' := by
  obtain ⟨hk, hl, hwin⟩ := hok
  have hlen := h.refines.commitIndex_le
  have hup : ∀ m, (s.node m).commitIndex ≤ (s'.node m).commitIndex :=
    (step_node hs).relate (R := fun _ x y => x.commitIndex ≤ y.commitIndex) (fun _ => le_refl _)
      fun m x hx => hx.commitIndex_le fun c hc => (h.offers.calls c hc).2
  obtain ⟨g', _, hg'⟩ := h.refines.step hk hl hs
  refine ⟨g', hg', h.offers.step h.refines.layout hlen hwin hs, mem_cons_self,
    booksAt_step hcb h.books h.last h.refines.layout hlen hup hs, fun m u hu => ?_⟩
  rcases mem_cons.1 hu with rfl | hu
  · exact le_rfl
  · exact (h.rising m u hu).trans (hup m)

/-- **The indices of a node stay in order**, whatever writes fail.  In every run whose steps are
`KeepsBooks`: `snapshotIndex ≤ commitIndex ≤ logLen` and `lastApplied ≤ commitIndex`, the commit
index is nowhere lower than it was before, and each index up to `lastApplied` was given to `onApply`
or is covered by a snapshot that the installer took. -/
theorem indices_kept (hcb : cb.Reports)
    (h : Trace (MxKeys.Raft.step cfg cb) KeepsBooks (Cluster.init cb) ts s) (n : N) :
    (s.node n).snapshotIndex ≤ (s.node n).commitIndex ∧
      (s.node n).commitIndex ≤ (s.node n).logLen ∧
      (s.node n).lastApplied ≤ (s.node n).commitIndex ∧
      (∀ u ∈ ts, (u.node n).commitIndex ≤ (s.node n).commitIndex) ∧
      ∀ i, 1 ≤ i → i ≤ (s.node n).lastApplied → Accounted ts n s.applied (s.applying n) i := by
  obtain ⟨g, hb⟩ := h.invariant (P := fun ts s => ∃ g, Booked cfg cb g ts s) (booked_init cfg hcb)
    fun _ _ _ _ ⟨_, hb⟩ hok hu => hb.step hcb hok hu
  have hn := hb.books n
  refine ⟨?_, hb.refines.commitIndex_le n, hn.applied_le, hb.rising n, hn.accounted⟩
  rw [hb.refines.layout.boundary n]
  exact hn.offset_le

/-- `KeepsBooks`, evaluated. -/
def keepsBooks (s : Cluster N C B S) : Action N C → Bool
  | .submitFail k => match s.submits[k]? with
    | some c => !(s.node c.self).rollsBack c.entry c.publishedLen
    | none => true
  | .sendAppend i => match s.sends[i]? with
    | some (.append n peer) => !needsSnapshotCatchUp (s.node n) peer
    | _ => true
  | a => commitsAsLeader s a

omit [Fintype N] [DecidableEq N] in
theorem keepsBooks_of_checked (h : keepsBooks s a = true) : KeepsBooks s a := by
  cases a with
  | submitFail k =>
    refine ⟨fun c hc _ => ?_, trivial, trivial⟩
    simpa [keepsBooks, hc] using h
  | sendAppend i =>
    refine ⟨trivial, trivial, fun n peer hi => ?_⟩
    simpa [keepsBooks, hi] using h
  | submitCommit k =>
    exact ⟨trivial, (steady_of_checked (a := .submitCommit k) rfl h).2, trivial⟩
  | _ => exact ⟨trivial, trivial, trivial⟩

end

theorem Callbacks.lastIndex_reports : (Callbacks.lastIndex : Callbacks C B Nat).Reports where
  init := rfl
  onApply := fun _ _ => le_max_right _ _
  installer := by
    rintro st data index term st' ⟨⟩
    exact le_max_right _ _

/-- The first of two commands of node `a` fails to persist, and stays: the second is on top of it by
then.  Both are replicated to node `b`; `a` applies them and compacts the first. -/
def failedSchedule (a b c : N) : List (Action N Nat) :=
  electionSchedule [a, b, c] 1 a [0] [2] ++ [.submit a 1, .submit a 2, .submitPersist 0 false,
    .submitFail 0, .submitPersist 1 true, .submitCommit 1] ++ appendSchedule a b 0 0 ++
    [.applyTake a, .applyRun a, .applyTake a, .compactStart a, .compactCheck a, .compactSave a true,
      .compactEnd a false]

theorem indices_kept_failed :
    ∃ ts, ∃ s : Cluster (Fin 3) Nat Nat Nat,
      Trace (step (.complete 3 1) .lastIndex) KeepsBooks (Cluster.init .lastIndex) ts s ∧
      (s.node 0).snapshotIndex = 1 ∧ (s.node 0).lastApplied = 2 ∧ (s.node 0).commitIndex = 2 ∧
      (s.node 0).commitIndex ≤ (s.node 0).logLen ∧ Accounted ts 0 s.applied (s.applying 0) 2 := by
  have hrun : (execute (step (.complete 3 1) .lastIndex) keepsBooks
      (Cluster.init .lastIndex : Cluster (Fin 3) Nat Nat Nat) (failedSchedule 0 1 2)).map
      (fun s => ((s.node 0).snapshotIndex, (s.node 0).lastApplied, (s.node 0).commitIndex)) =
      some (1, 2, 2) := by
    decide +kernel
  obtain ⟨s, hs, hobs⟩ := reach_observe (P := fun _ => True) (fun _ _ => trivial)
    (fun _ _ _ hb => keepsBooks_of_checked hb) hrun
  obtain ⟨ts, hts⟩ := hs.trace
  simp only [Prod.mk.injEq] at hobs
  obtain ⟨hsnap, hlast, hcommit⟩ := hobs
  obtain ⟨_, hlen, _, _, hall⟩ := indices_kept Callbacks.lastIndex_reports hts 0
  exact ⟨ts, s, hts, hsnap, hlast, hcommit, hlen, hall 2 (by decide) (by omega)⟩

/-- Node `a` replicates a command to node `b` and commits it while the command is still being
persisted; then the write fails. -/
def rollbackSchedule (a b c : N) : List (Action N Nat) :=
  electionSchedule [a, b, c] 1 a [0] [2] ++ [.submit a 7] ++ appendSchedule a b 0 0 ++
    [.submitPersist 0 false, .submitFail 0]

/-- **The commit index points past the log**: the entry that the failed `Submit` takes off is
committed. -/
theorem commit_past_log :
    ∃ s : Cluster (Fin 3) Nat Nat Unit,
      Reach (step (.complete 3 1) .stateless) anyAction (Cluster.init .stateless) s ∧
      (s.node 0).commitIndex = 1 ∧ (s.node 0).logLen = 0 := by
  have hrun : (execute (step (.complete 3 1) .stateless) (fun _ _ => true)
      (Cluster.init .stateless : Cluster (Fin 3) Nat Nat Unit) (rollbackSchedule 0 1 2)).map
      (fun s => ((s.node 0).commitIndex, (s.node 0).logLen)) = some (1, 0) := by
    rfl
  obtain ⟨s, hs, hobs⟩ := reach_observe_any hrun
  exact ⟨s, hs, (Prod.mk.inj hobs).1, (Prod.mk.inj hobs).2⟩

end MxKeys.Raft
