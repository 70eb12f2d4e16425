/-
# MxKeys.Raft.Progress — what a leader knows of its peers.

`nextIndex` and `matchIndex` are written in three places: by `becomeLeader` for every peer, by
`sendAppendEntries` when a response comes in, and by `SendInstallSnapshot` when the last chunk was
acknowledged (`Progresses`).  The second looks at role, term and `nextIndex` before it writes, the
third does not look at anything: a stream that ends late takes the peer's entry back to the
snapshot, and it writes on a node that lost its office, or won a later one, in the meantime.

The check of `sendAppendEntries` has a gap of its own.  A rejection takes `nextIndex` down by one
without regard to `matchIndex`, and a success for a request that was sent at the lower `nextIndex`
before then passes the check.

`progress_forward` says that nothing else can go wrong: as long as a stream ends while the peer
still needs the snapshot, at the leader of the term it was sent in, and a rejection finds
`nextIndex` above the first unknown index, `matchIndex` never goes back within a term of office, and
every write is the leader's of the request's term.
-/
import MxKeys.Raft.Sections
import MxKeys.Raft.Senders

namespace MxKeys.Raft

open MxKeys.Lib
open Function

variable {N C B S : Type*} [DecidableEq N] {cfg : Config N} {cb : Callbacks C B S}
  {s s' : Cluster N C B S} {a : Action N C} {n : N} {x : Node N C B}

/-! ## The two tables -/

/-- `nextIndex` and `matchIndex`. -/
def Node.progress (x : Node N C B) : (N → Nat) × (N → Nat) := (x.nextIndex, x.matchIndex)

section

omit [DecidableEq N]

theorem progress_observeTerm (x : Node N C B) (term : Nat) :
    (x.observeTerm term).progress = x.progress :=
  (congrArg Node.progress (restands_observeTerm x term) :)

theorem progress_handleAppendEntries (cfg : Config N) (self : N) (now : Nat) (io : AppendIo)
    (x : Node N C B) (req : AppendEntriesRequest N C) :
    (handleAppendEntries cfg self now io x req).1.progress = x.progress := by
  rcases handleAppendEntries_eq cfg self now io x req with h | ⟨_, _, _, h⟩ <;> rw [h]
  rfl

theorem progress_handleInstallSnapshot (cfg : Config N) (self : N) (now : Nat) (io : ChunkIo)
    (x : Node N C B) (req : InstallSnapshotRequest N B) :
    (handleInstallSnapshot cfg self now io x req).1.progress = x.progress := by
  rcases handleInstallSnapshot_eq cfg self now io x req with h | ⟨_, h⟩ <;> rw [h]
  rfl

theorem progress_compactFinish (x : Node N C B) (index term : Nat) :
    (compactFinish x index term).progress = x.progress := by
  unfold compactFinish
  split_ifs <;> rfl

end

/-- `Progresses cfg s a n x`: what a section on node `n`, which is `x` afterwards, does to the
tables. -/
inductive Progresses (cfg : Config N) (s : Cluster N C B S) :
    Action N C → N → Node N C B → Prop
  | kept {a : Action N C} {n : N} {x : Node N C B} (hx : x.progress = (s.node n).progress)
      (hst : x.state = .leader → (s.node n).state = .leader) : Progresses cfg s a n x
  | elected {n : N} (hcand : (s.node n).state = .candidate) :
      Progresses cfg s (.finishBallot n) n (becomeLeader cfg n (s.node n))
  | matched {i : Nat} {n peer : N} {nextIdx : Nat} {req : AppendEntriesRequest N C}
      {r : AppendEntriesResponse} {x : Node N C B}
      (hi : s.appends[i]? = some ⟨n, peer, nextIdx, req, .answered r⟩)
      (hlead : (s.node n).state = .leader) (hterm : (s.node n).currentTerm = req.term)
      (hnext : (s.node n).nextIndex peer = nextIdx)
      (hx : x.progress =
        (update (s.node n).nextIndex peer (nextIdx + req.entries.length),
          update (s.node n).matchIndex peer (nextIdx + req.entries.length - 1))) :
      Progresses cfg s (.appendReply i) n x
  | backed {i : Nat} {n peer : N} {nextIdx : Nat} {req : AppendEntriesRequest N C}
      {r : AppendEntriesResponse} {x : Node N C B}
      (hi : s.appends[i]? = some ⟨n, peer, nextIdx, req, .answered r⟩)
      (hlead : (s.node n).state = .leader) (hterm : (s.node n).currentTerm = req.term)
      (hnext : (s.node n).nextIndex peer = nextIdx) (hok : r.success = false)
      (hpos : 1 < (s.node n).nextIndex peer)
      (hx : x.progress = (update (s.node n).nextIndex peer
        ((s.node n).nextIndex peer - 1), (s.node n).matchIndex)) :
      Progresses cfg s (.appendReply i) n x
  | caughtUp {i : Nat} {n peer : N} {snap : Snapshot B} {term offset : Nat} {x : Node N C B}
      (hi : s.snaps[i]? = some ⟨n, peer, snap, term, offset, .delivered⟩)
      (hx : x.progress =
        (update (s.node n).nextIndex peer (snap.lastIncludedIndex + 1),
          update (s.node n).matchIndex peer snap.lastIncludedIndex)) :
      Progresses cfg s (.snapshotDone i) n x

/-- A section that drifts keeps the tables if it does not write them. -/
theorem Progresses.drift (hx : x.progress = (s.node n).progress) (hd : Drift (s.node n) x) :
    Progresses cfg s a n x := by
  refine .kept hx fun hl => ?_
  rcases hd.state with hf | ⟨hst, _⟩
  · rw [hf] at hl
    cases hl
  · rw [← hst]
    exact hl

theorem progresses_appendReply {i : Nat} {peer : N} {nextIdx : Nat}
    {req : AppendEntriesRequest N C} {r : AppendEntriesResponse}
    (hi : s.appends[i]? = some ⟨n, peer, nextIdx, req, .answered r⟩) :
    Progresses cfg s (.appendReply i) n
      (appendEntriesReply cfg n (s.node n) peer req nextIdx r) := by
  have hd := drift_appendEntriesReply cfg n (s.node n) peer req nextIdx r
  unfold appendEntriesReply at hd ⊢
  split_ifs at hd ⊢ with hterm hskip hok hpos
  · exact .drift (progress_observeTerm _ _) hd
  · exact .kept rfl id
  · obtain ⟨hlead, hsame, hnext⟩ : (s.node n).state = .leader ∧
        (s.node n).currentTerm = req.term ∧ (s.node n).nextIndex peer = nextIdx := by
      simpa only [not_or, not_not] using hskip
    refine .matched hi hlead hsame hnext ?_
    obtain ⟨c, hc, _⟩ := updateCommitIndex_eq cfg n { s.node n with
      nextIndex := update (s.node n).nextIndex peer (nextIdx + req.entries.length)
      matchIndex := update (s.node n).matchIndex peer
        (nextIdx + req.entries.length - 1) }
    rw [hc]
    rfl
  · obtain ⟨hlead, hsame, hnext⟩ : (s.node n).state = .leader ∧
        (s.node n).currentTerm = req.term ∧ (s.node n).nextIndex peer = nextIdx := by
      simpa only [not_or, not_not] using hskip
    exact .backed hi hlead hsame hnext (Bool.eq_false_iff.2 hok) hpos rfl
  · exact .kept rfl id

/-- **Who writes the tables.** -/
theorem Section.progresses (h : Section cfg s a n x) : Progresses cfg s a n x := by
  cases h with
  | campaign => exact .kept rfl nofun
  | @requestVote _ _ _ req =>
    have hkeep := restands_handleRequestVote (s.clock n) (s.node n) req
    refine .kept (congrArg Node.progress hkeep :) fun hl => ?_
    rcases state_handleRequestVote (s.clock n) (s.node n) req with hf | ⟨hst, _⟩
    · cases hl.symm.trans hf
    · exact hst.symm.trans hl
  | voteReply => exact .drift (progress_observeTerm _ _) (drift_observeTerm _ _)
  | elected _ hcand _ => exact .elected hcand
  | appendEntries =>
    exact .drift (progress_handleAppendEntries _ _ _ _ _ _) (drift_handleAppendEntries _ _ _ _ _ _)
  | appendReply hi => exact progresses_appendReply hi
  | chunk =>
    exact .drift (progress_handleInstallSnapshot _ _ _ _ _ _)
      (drift_handleInstallSnapshot _ _ _ _ _ _)
  | chunkReply => exact .drift (progress_observeTerm _ _) (drift_observeTerm _ _)
  | snapshotSent hi => exact .caughtUp hi rfl
  | finishCompact =>
    exact .drift (progress_compactFinish _ _ _) (.of_standing (standing_compactFinish _ _ _))
  | @commit _ c =>
    obtain ⟨_, hc, _⟩ := updateCommitIndex_eq cfg c.self (s.node c.self)
    rw [hc]
    exact .kept rfl id
  | rollback =>
    unfold submitRollback
    split_ifs
    · exact .kept rfl id
    · exact .kept rfl id
  | rename | finishInstall | saveSnapshot | publish | persist | apply => exact .kept rfl id

/-! ## Terms of office -/

/-- In a term a node is a candidate first, then the leader, then a follower. -/
def State.rank : State → Nat
  | .candidate => 0
  | .leader => 1
  | .follower => 2

/-- Term and office in one number. -/
def Node.rank (x : Node N C B) : Nat := 3 * x.currentTerm + x.state.rank

/-- `x` is the leader of term `T`. -/
def Node.Leads (x : Node N C B) (T : Nat) : Prop := x.state = .leader ∧ x.currentTerm = T

omit [DecidableEq N] in
theorem leads_iff_rank {T : Nat} : x.Leads T ↔ x.rank = 3 * T + 1 := by
  unfold Node.Leads Node.rank
  cases x.state <;> simp [State.rank] <;> omega

omit [DecidableEq N] in
theorem Drift.rank_le {x y : Node N C B} (h : Drift x y) : x.rank ≤ y.rank := by
  have hterm := h.term_le
  have hx : x.state.rank ≤ 2 := by cases x.state <;> decide
  unfold Node.rank
  rcases h.state with hf | ⟨hst, heq⟩
  · rw [hf]
    show _ ≤ 3 * y.currentTerm + 2
    omega
  · rw [hst, heq]

/-- **Nobody returns to an office**: a section moves a node forward in this order. -/
theorem Section.rank_le (h : Section cfg s a n x) : (s.node n).rank ≤ x.rank := by
  have hrank : ∀ st : State, st.rank ≤ 2 := fun st => by cases st <;> decide
  cases h with
  | campaign =>
    have := hrank (s.node n).state
    show 3 * (s.node n).currentTerm + _ ≤ 3 * ((s.node n).currentTerm + 1) + 0
    omega
  | @requestVote i sender peer req hi =>
    obtain ⟨y, r, hy⟩ : ∃ y r, handleRequestVote (s.clock n) (s.node n) req = (y, r) :=
      ⟨_, _, rfl⟩
    rw [hy]
    obtain ⟨_, hd⟩ | ⟨_, _, hle, _, _, hst⟩ := handleRequestVote_spec _ _ _ hy
    · exact hd.rank_le
    · have := hrank (s.node n).state
      unfold Node.rank
      rcases hst with hf | ⟨hst, heq⟩
      · rw [hf]
        show _ ≤ 3 * y.currentTerm + 2
        omega
      · rw [hst, heq]
  | voteReply => exact (drift_observeTerm _ _).rank_le
  | elected _ hcand _ =>
    unfold Node.rank
    rw [hcand]
    exact Nat.le_succ _
  | appendEntries => exact (drift_handleAppendEntries _ _ _ _ _ _).rank_le
  | appendReply => exact (drift_appendEntriesReply _ _ _ _ _ _ _).rank_le
  | chunk => exact (drift_handleInstallSnapshot _ _ _ _ _ _).rank_le
  | chunkReply => exact (drift_observeTerm _ _).rank_le
  | finishCompact => exact (Drift.of_standing (standing_compactFinish _ _ _)).rank_le
  | commit => exact (Drift.of_standing (standing_updateCommitIndex _ _ _)).rank_le
  | rollback => exact (Drift.of_standing (standing_submitRollback _ _ _)).rank_le
  | snapshotSent | rename | finishInstall | saveSnapshot | publish | persist | apply =>
    exact le_rfl

/-! ## Careful steps -/

/-- The response is a rejection. -/
def AppendCall.rejected (c : AppendCall N C) : Bool :=
  match c.phase with
  | .answered r => !r.success
  | _ => false

/-- A rejection that `sendAppendEntries` acts on finds `nextIndex` above the first index that is not
known to match. -/
def AppendCall.Careful (x : Node N C B) (c : AppendCall N C) : Prop :=
  c.rejected = true → x.state = .leader → x.currentTerm = c.req.term →
    x.nextIndex c.peer = c.nextIdx → 1 < x.nextIndex c.peer →
    x.matchIndex c.peer + 1 < x.nextIndex c.peer

/-- A stream ends at the leader of the term it was sent in, while the peer still needs the
snapshot. -/
def SnapCall.Careful (x : Node N C B) (c : SnapCall N B) : Prop :=
  x.state = .leader ∧ x.currentTerm = c.term ∧ x.nextIndex c.peer ≤ c.snap.lastIncludedIndex

/-- What is asked of a step. -/
def Careful (s : Cluster N C B S) : Action N C → Prop
  | .appendReply i => ∀ c ∈ s.appends[i]?, c.Careful (s.node c.sender)
  | .snapshotDone i => ∀ c ∈ s.snaps[i]?, c.Careful (s.node c.sender)
  | _ => True

/-- What a leader takes for replicated lies below what it sends next. -/
def Node.Ahead (cfg : Config N) (n : N) (x : Node N C B) : Prop :=
  x.state = .leader → ∀ p ∈ cfg.peers n, x.matchIndex p < x.nextIndex p

/-- One entry of each table is written, in order and not below the old `matchIndex`. -/
theorem forward_of_entry {x y : Node N C B} {peer : N} {i j : Nat}
    (hx : ∀ p ∈ cfg.peers n, x.matchIndex p < x.nextIndex p)
    (hy : y.progress = (update x.nextIndex peer i, update x.matchIndex peer j))
    (hij : peer ∈ cfg.peers n → j < i ∧ x.matchIndex peer ≤ j) :
    ∀ p ∈ cfg.peers n, y.matchIndex p < y.nextIndex p ∧ x.matchIndex p ≤ y.matchIndex p := by
  obtain ⟨hnext, hmatch⟩ := Prod.mk.inj hy
  intro p hp
  rw [hnext, hmatch]
  by_cases heq : p = peer
  · subst heq
    rw [update_self, update_self]
    exact hij hp
  · rw [update_of_ne heq, update_of_ne heq]
    exact ⟨hx p hp, le_refl _⟩

/-- **One section** keeps the order of the two tables and does not take `matchIndex` back. -/
theorem Progresses.forward (h : Progresses cfg s a n x) (hc : Careful s a)
    (hs : (s.node n).Ahead cfg n) :
    x.Ahead cfg n ∧ ((s.node n).state = .leader →
      ∀ p ∈ cfg.peers n, (s.node n).matchIndex p ≤ x.matchIndex p) := by
  -- a write by a leader, to one entry of each table
  have hentry : ∀ {peer : N} {i j : Nat}, (s.node n).state = .leader →
      x.progress = (update (s.node n).nextIndex peer i,
        update (s.node n).matchIndex peer j) →
      (peer ∈ cfg.peers n → j < i ∧ (s.node n).matchIndex peer ≤ j) →
      x.Ahead cfg n ∧ ((s.node n).state = .leader →
        ∀ p ∈ cfg.peers n, (s.node n).matchIndex p ≤ x.matchIndex p) := by
    intro peer i j hlead hx hij
    have hboth := forward_of_entry (hs hlead) hx hij
    exact ⟨fun _ p hp => (hboth p hp).1, fun _ p hp => (hboth p hp).2⟩
  cases h with
  | kept hx hst =>
    obtain ⟨hnext, hmatch⟩ := Prod.mk.inj hx
    refine ⟨fun hl p hp => ?_, fun _ p _ => by rw [hmatch]⟩
    rw [hnext, hmatch]
    exact hs (hst hl) p hp
  | elected hcand =>
    refine ⟨fun _ p hp => ?_, fun hl => ?_⟩
    · simp [becomeLeader, hp]
    · rw [hcand] at hl
      cases hl
  | matched hi hlead hterm hnext hx =>
    refine hentry hlead hx fun hp => ?_
    have := hs hlead _ hp
    omega
  | backed hi hlead hterm hnext hok hpos hx =>
    rw [← update_eq_self _ (s.node n).matchIndex] at hx
    refine hentry hlead hx fun _ => ?_
    have := hc _ hi (by simp [AppendCall.rejected, hok]) hlead hterm hnext hpos
    dsimp only at this
    omega
  | caughtUp hi hx =>
    obtain ⟨hlead, _, hneeded⟩ := hc _ hi
    refine hentry hlead hx fun hp => ?_
    have := hs hlead _ hp
    dsimp only at hneeded
    omega

/-! ## Runs -/

/-- The response that an action acts on is for a request that node `n` sent in term `T`. -/
inductive Acknowledges (s : Cluster N C B S) (n : N) (T : Nat) : Action N C → Prop
  | append {i : Nat} {c : AppendCall N C} (hi : s.appends[i]? = some c) (hn : c.sender = n)
      (hT : c.req.term = T) : Acknowledges s n T (.appendReply i)
  | snapshot {i : Nat} {c : SnapCall N B} (hi : s.snaps[i]? = some c) (hn : c.sender = n)
      (hT : c.term = T) : Acknowledges s n T (.snapshotDone i)

/-- The tables of node `n` stay, are set up by `becomeLeader`, or are written for a response by the
leader of the term in which the request was sent. -/
def WrittenByLeader (cfg : Config N) (s : Cluster N C B S) (a : Action N C) (n : N)
    (x : Node N C B) : Prop :=
  x.progress = (s.node n).progress ∨
    (a = .finishBallot n ∧ (s.node n).state = .candidate ∧ x = becomeLeader cfg n (s.node n)) ∨
    ∃ T, Acknowledges s n T a ∧ (s.node n).Leads T

theorem Progresses.written (h : Progresses cfg s a n x) (hc : Careful s a) :
    WrittenByLeader cfg s a n x := by
  cases h with
  | kept hx _ => exact .inl hx
  | elected hcand => exact .inr (.inl ⟨rfl, hcand, rfl⟩)
  | matched hi hlead hterm _ _ =>
    exact .inr (.inr ⟨_, .append hi rfl rfl, hlead, hterm⟩)
  | backed hi hlead hterm _ _ _ _ =>
    exact .inr (.inr ⟨_, .append hi rfl rfl, hlead, hterm⟩)
  | caughtUp hi _ =>
    obtain ⟨hlead, hterm, _⟩ := hc _ hi
    exact .inr (.inr ⟨_, .snapshot hi rfl rfl, hlead, hterm⟩)

/-- A step leaves a node alone or runs a section on it. -/
theorem step_at (hs : step cfg cb s a = some s') (n : N) :
    s'.node n = s.node n ∨ Section cfg s a n (s'.node n) := by
  rcases (step_node hs).node with hsame | ⟨m, x, hsec, hnode⟩
  · exact .inl (congrFun hsame n)
  · by_cases hn : n = m
    · subst hn
      rw [hnode, update_self]
      exact .inr hsec
    · rw [hnode, update_of_ne hn]
      exact .inl rfl

theorem ahead_step (hs : step cfg cb s a = some s') (hc : Careful s a)
    (h : ∀ n, (s.node n).Ahead cfg n) (n : N) :
    (s'.node n).Ahead cfg n ∧ ((s.node n).state = .leader →
      ∀ p ∈ cfg.peers n, (s.node n).matchIndex p ≤ (s'.node n).matchIndex p) := by
  rcases step_at hs n with hsame | hsec
  · rw [hsame]
    exact ⟨h n, fun _ p _ => le_refl _⟩
  · exact hsec.progresses.forward hc (h n)

theorem rank_step (hs : step cfg cb s a = some s') (n : N) :
    (s.node n).rank ≤ (s'.node n).rank := by
  rcases step_at hs n with hsame | hsec
  · rw [hsame]
  · exact hsec.rank_le

theorem ahead_reach (hs : Reach (step cfg cb) Careful (Cluster.init cb) s) :
    ∀ n, (s.node n).Ahead cfg n := by
  refine hs.invariant (P := fun s => ∀ n, (s.node n).Ahead cfg n) ?_ ?_
  · nofun
  · exact fun t a u h hc hu n => (ahead_step hu hc h n).1

/-- **Peer progress moves forward.**  In every run whose steps are careful, a write to the tables
for a response is made by the leader of the term the request was sent in, and between any two states
in which a node is the leader of one and the same term, `matchIndex` has not gone back. -/
theorem progress_forward (hs : Reach (step cfg cb) Careful (Cluster.init cb) s) :
    (∀ a u, Careful s a → step cfg cb s a = some u → ∀ n, WrittenByLeader cfg s a n (u.node n)) ∧
      ∀ t, Reach (step cfg cb) Careful s t → ∀ n T, (s.node n).Leads T → (t.node n).Leads T →
        ∀ p ∈ cfg.peers n, (s.node n).matchIndex p ≤ (t.node n).matchIndex p := by
  have hahead := ahead_reach hs
  refine ⟨fun a u hc hu n => ?_, fun t ht n T hleads => ?_⟩
  · rcases step_at hu n with hsame | hsec
    · exact .inl (congrArg Node.progress hsame)
    · exact hsec.progresses.written hc
  · -- ranks rise along the run, so a leader of `T` at both ends has been one all the time
    have hrun : (∀ m, (t.node m).Ahead cfg m) ∧ (s.node n).rank ≤ (t.node n).rank ∧
        ((t.node n).Leads T → ∀ p ∈ cfg.peers n,
          (s.node n).matchIndex p ≤ (t.node n).matchIndex p) := by
      refine ht.invariant (P := fun t => (∀ m, (t.node m).Ahead cfg m) ∧
        (s.node n).rank ≤ (t.node n).rank ∧ ((t.node n).Leads T → ∀ p ∈ cfg.peers n,
          (s.node n).matchIndex p ≤ (t.node n).matchIndex p))
        ⟨hahead, Nat.le_refl _, fun _ p _ => Nat.le_refl _⟩ ?_
      intro t a u ⟨hall, hrank, hmatch⟩ hc hu
      have hstep := rank_step hu n
      refine ⟨fun m => (ahead_step hu hc hall m).1, Nat.le_trans hrank hstep, fun hu' p hp => ?_⟩
      have ht' : (t.node n).Leads T := by
        rw [leads_iff_rank] at hleads hu' ⊢
        omega
      exact (hmatch ht' p hp).trans ((ahead_step hu hc hall n).2 ht'.1 p hp)
    exact hrun.2.2

/-- Two streams of the snapshot of node `a` to node `c`; `c` installs the first and acknowledges the
second, of which node `a` has yet to hear. -/
def twoStreams (a b c : N) : List (Action N Nat) :=
  compactSchedule a b c ++ [.sendStart a c, .sendStart a c, .loadSnapshot 1, .loadSnapshot 2,
    .sampleTerm 0, .sampleTerm 1, .chunkHandle 0 .ok, .runInstaller c, .renameSnapshot c true,
    .installEnd c true, .chunkReply 0, .snapshotDone 0, .chunkHandle 1 .ok, .chunkReply 1]

/-- Another entry is replicated to node `c`. -/
def oneMore (a c : N) : List (Action N Nat) :=
  [.submit a 8, .submitPersist 1 true, .submitCommit 1] ++ appendSchedule a c 3 1

/-- `Careful`, evaluated. -/
def careful (s : Cluster N C B S) : Action N C → Bool
  | .appendReply i => match s.appends[i]? with
    | some c => !c.rejected || decide ((s.node c.sender).matchIndex c.peer + 1 <
        (s.node c.sender).nextIndex c.peer)
    | none => true
  | .snapshotDone i => match s.snaps[i]? with
    | some c => decide ((s.node c.sender).state = .leader ∧
        (s.node c.sender).currentTerm = c.term ∧
        (s.node c.sender).nextIndex c.peer ≤ c.snap.lastIncludedIndex)
    | none => true
  | _ => true

omit [DecidableEq N] in
theorem careful_of_checked (h : careful s a = true) : Careful s a := by
  cases a with
  | appendReply i =>
    intro c hc hrej _ _ _ _
    have hc : s.appends[i]? = some c := hc
    simp only [careful, hc, hrej, Bool.not_true, Bool.false_or] at h
    exact of_decide_eq_true h
  | snapshotDone i =>
    intro c hc
    have hc : s.snaps[i]? = some c := hc
    simp only [careful, hc] at h
    have hok := of_decide_eq_true h
    exact hok
  | _ => trivial

/-- Office, term and `matchIndex` of one peer. -/
def Cluster.view (s : Cluster N C B S) (n p : N) : State × Nat × Nat :=
  ((s.node n).state, (s.node n).currentTerm, (s.node n).matchIndex p)

omit [DecidableEq N] in
theorem leads_of_view {p : N} {T m : Nat} (h : s.view n p = (.leader, T, m)) :
    (s.node n).Leads T ∧ (s.node n).matchIndex p = m := by
  obtain ⟨hlead, h⟩ := Prod.mk.inj h
  obtain ⟨hterm, hmatch⟩ := Prod.mk.inj h
  exact ⟨⟨hlead, hterm⟩, hmatch⟩

/-- Node `0` replicates another entry to node `2` after it has caught up. -/
theorem progress_forward_replicates :
    ∃ s t : Cluster (Fin 3) Nat Nat Nat,
      Reach (step (.complete 3 1) .lastIndex) Careful (Cluster.init .lastIndex) s ∧
      Reach (step (.complete 3 1) .lastIndex) Careful s t ∧
      (s.node 0).Leads 1 ∧ (t.node 0).Leads 1 ∧
      (s.node 0).matchIndex 2 ≤ (t.node 0).matchIndex 2 := by
  have hrun : ((execute (step (.complete 3 1) .lastIndex) careful
      (Cluster.init .lastIndex : Cluster (Fin 3) Nat Nat Nat) (twoStreams 0 1 2)).bind
      fun s => (execute (step (.complete 3 1) .lastIndex) careful s (oneMore 0 2)).map
        fun t => (s.view 0 2, t.view 0 2)) = some ((.leader, 1, 1), (.leader, 1, 2)) := by
    decide +kernel
  obtain ⟨s, t, hs, ht, hsv, htv⟩ := reach_observe_two (P := fun _ => True) (fun _ _ => trivial)
    (fun _ _ _ => careful_of_checked) hrun
  have hs' := (leads_of_view hsv).1
  have ht' := (leads_of_view htv).1
  exact ⟨s, t, hs, ht, hs', ht', (progress_forward hs).2 t ht 0 1 hs' ht' 2 (by decide)⟩

/-- **`matchIndex` goes back.**  Node `0` hears of the end of the second stream only after it has
replicated another entry to node `2`. -/
theorem progress_taken_back :
    ∃ s t : Cluster (Fin 3) Nat Nat Nat,
      Reach (step (.complete 3 1) .lastIndex) anyAction (Cluster.init .lastIndex) s ∧
      Reach (step (.complete 3 1) .lastIndex) anyAction s t ∧
      (s.node 0).Leads 1 ∧ (t.node 0).Leads 1 ∧
      (s.node 0).matchIndex 2 = 2 ∧ (t.node 0).matchIndex 2 = 1 := by
  have hrun : ((execute (step (.complete 3 1) .lastIndex) (fun _ _ => true)
      (Cluster.init .lastIndex : Cluster (Fin 3) Nat Nat Nat)
      (twoStreams 0 1 2 ++ oneMore 0 2)).bind
      fun s => (execute (step (.complete 3 1) .lastIndex) (fun _ _ => true) s
        [.snapshotDone 1]).map fun t => (s.view 0 2, t.view 0 2)) =
      some ((.leader, 1, 2), (.leader, 1, 1)) := by
    decide +kernel
  obtain ⟨s, t, hs, ht, hsv, htv⟩ := reach_observe_two (P := fun _ => True) (fun _ _ => trivial)
    (fun _ _ _ _ => trivial) hrun
  obtain ⟨hs', hsm⟩ := leads_of_view hsv
  obtain ⟨ht', htm⟩ := leads_of_view htv
  exact ⟨s, t, hs, ht, hs', ht', hsm, htm⟩

end MxKeys.Raft
