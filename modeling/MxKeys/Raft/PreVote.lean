/-
# MxKeys.Raft.PreVote — when a probing node can talk itself into an election.

`runPreVote` asks every peer whether it would vote in the next term, and `handlePreVote` refuses
while its node has heard from a leader within the election timeout.  That is meant to keep a node
that was cut off from disturbing a leader the others follow.

The followers of the leader do refuse: hearing an `AppendEntries` sets `lastContact` and `leaderId`,
and neither is ever set back (`heard_refuses`).  The leader does not: its `lastContact` is the time
of its own campaign and nothing refreshes it while it leads (`leader_contact`), so after one
election timeout it answers a probe like a node without a leader.  `preVote_fails_iff` counts what
that one vote is worth.
-/
import Mathlib.Algebra.Ring.Parity
import MxKeys.Raft.Election
import MxKeys.Raft.Sections

namespace MxKeys.Raft

open MxKeys.Lib
open List Option

variable {N C B S : Type*} [DecidableEq N]

/-! ## The round -/

/-- `sendPreVote` to a peer that answers from the state `s`: a response of a higher term counts as a
refusal. -/
def sendPreVote (cfg : Config N) (s : Cluster N C B S) (n peer : N) (term : Nat) : Bool :=
  let resp := handlePreVote cfg.electionTimeout (s.clock peer) (s.node peer)
    ((s.node n).voteRequest n term)
  if term < resp.term then false else resp.voteGranted

/-- The collecting loop of `runPreVote`: results in the order they arrive, with an early exit. -/
def collectPreVotes (needed : Nat) : Nat → List Bool → Bool
  | grants, [] => decide (needed ≤ grants)
  | grants, true :: rest =>
    if needed ≤ grants + 1 then true else collectPreVotes needed (grants + 1) rest
  | grants, false :: rest => collectPreVotes needed grants rest

/-- `runPreVote` of `n` when every probe is answered from the state `s`, in the order given. -/
def runPreVote (cfg : Config N) (s : Cluster N C B S) (n : N) (order : List N) : Bool :=
  if (cfg.peers n).length = 0 then true
  else
    let nextTerm := (s.node n).currentTerm + 1
    collectPreVotes (cfg.needed n) 1 (order.map fun peer => sendPreVote cfg s n peer nextTerm)

/-- What `handlePreVote` of `p` asks before it grants the probe of `n`. -/
def WouldGrant (cfg : Config N) (s : Cluster N C B S) (n p : N) : Prop :=
  (s.node p).currentTerm ≤ (s.node n).currentTerm + 1 ∧
    ¬(s.clock p - (s.node p).lastContact < cfg.electionTimeout ∧ (s.node p).leaderId.isSome) ∧
    (s.node p).isLogUpToDate (s.node n).lastLogIndexTerm.1 (s.node n).lastLogIndexTerm.2 = true

instance (cfg : Config N) (s : Cluster N C B S) (n p : N) : Decidable (WouldGrant cfg s n p) :=
  inferInstanceAs (Decidable (_ ∧ ¬(_ ∧ _) ∧ _))

theorem collectPreVotes_eq (needed grants : Nat) (results : List Bool) :
    collectPreVotes needed grants results = decide (needed ≤ grants + results.count true) := by
  induction results generalizing grants with
  | nil => simp [collectPreVotes]
  | cons r rest ih =>
    cases r with
    | false => simp [collectPreVotes, ih]
    | true =>
      rw [collectPreVotes, ih, count_cons_self]
      split_ifs with h
      · exact (decide_eq_true (by omega)).symm
      · exact decide_eq_decide.2 (by omega)

variable {cfg : Config N} {s : Cluster N C B S} {n : N}

omit [DecidableEq N] in
theorem sendPreVote_iff {p : N} :
    sendPreVote cfg s n p ((s.node n).currentTerm + 1) = true ↔ WouldGrant cfg s n p := by
  unfold sendPreVote handlePreVote WouldGrant Node.voteRequest
  split_ifs with hterm hheard <;> simp_all

section

variable [Fintype N] {cfg : Config N} {cb : Callbacks C B S} {s s' : Cluster N C B S}

/-- **The round succeeds iff the granting peers and the node itself are enough.** -/
theorem runPreVote_iff {n : N} (hne : (cfg.peers n).length ≠ 0) {order : List N}
    (horder : order.Perm (cfg.peers n)) :
    runPreVote cfg s n order = true ↔
      Fintype.card N / 2 ≤ (Finset.univ.filter fun p => p ≠ n ∧ WouldGrant cfg s n p).card := by
  have hcount : (order.map fun p => sendPreVote cfg s n p ((s.node n).currentTerm + 1)).count true =
      (Finset.univ.filter fun p => p ≠ n ∧ WouldGrant cfg s n p).card := by
    have hnodup : order.Nodup := horder.nodup_iff.2 (cfg.peers_nodup n)
    have hset : (Finset.univ.filter fun p => p ≠ n ∧ WouldGrant cfg s n p) =
        (order.filter fun p => sendPreVote cfg s n p ((s.node n).currentTerm + 1)).toFinset := by
      ext p
      simp [horder.mem_iff, cfg.mem_peers, sendPreVote_iff]
    rw [hset, toFinset_card_of_nodup (hnodup.filter _), List.count, countP_map,
      countP_eq_length_filter]
    congr 2
    funext p
    simp
  unfold runPreVote
  rw [if_neg hne]
  rw [collectPreVotes_eq, hcount, decide_eq_true_iff, card_eq_peers cfg n, Config.needed]
  omega

end

/-! ## Contact with a leader -/

/-- What a section that runs at time `now` does to `lastContact` and `leaderId`. -/
structure Contact (now : Nat) (x y : Node N C B) : Prop where
  time : y.lastContact = x.lastContact ∨ y.lastContact = now
  known : x.leaderId.isSome → y.leaderId.isSome
  /-- A leader does not refresh its own contact. -/
  served : x.state = .leader → y.state = .leader → y.currentTerm = x.currentTerm →
    y.lastContact = x.lastContact

variable {now : Nat} {x y : Node N C B}

omit [DecidableEq N] in
theorem Contact.of_same (ht : y.lastContact = x.lastContact) (hl : y.leaderId = x.leaderId) :
    Contact now x y :=
  ⟨.inl ht, fun h => hl ▸ h, fun _ _ _ => ht⟩

omit [DecidableEq N] in
/-- Whoever hears a leader is a follower. -/
theorem Contact.of_heard {leader : N} (ht : y.lastContact = now) (hl : y.leaderId = some leader)
    (hs : y.state = .follower) : Contact now x y := by
  refine ⟨.inr ht, fun _ => by rw [hl]; rfl, fun _ hlead _ => ?_⟩
  rw [hs] at hlead
  cases hlead

omit [DecidableEq N] in
theorem contact_observeTerm (now : Nat) (x : Node N C B) (term : Nat) :
    Contact now x (x.observeTerm term) := by
  unfold Node.observeTerm
  split_ifs <;> exact .of_same rfl rfl

theorem contact_handleRequestVote (now : Nat) (x : Node N C B) (req : RequestVoteRequest N)
    (hown : x.state = .leader → ∃ d, x.votedFor = some d ∧ d ≠ req.candidateId) :
    Contact now x (handleRequestVote now x req).1 := by
  have hobs := contact_observeTerm now x req.term
  have hdrift := drift_observeTerm x req.term
  unfold handleRequestVote
  dsimp only
  split_ifs with hstale hgrant
  · exact .of_same rfl rfl
  · refine ⟨.inr rfl, hobs.known, fun hlead _ hterm => ?_⟩
    -- the leader's vote of this term is its own
    obtain ⟨d, hd, hne⟩ := hown hlead
    rw [hdrift.same hterm, hd] at hgrant
    obtain h | h := hgrant.1
    · cases h
    · exact absurd (some.inj h) hne
  · exact hobs

omit [DecidableEq N] in
theorem contact_handleAppendEntries (cfg : Config N) (self : N) (now : Nat) (io : AppendIo)
    (x : Node N C B) (req : AppendEntriesRequest N C) :
    Contact now x (handleAppendEntries cfg self now io x req).1 := by
  rcases handleAppendEntries_eq cfg self now io x req with h | ⟨_, _, _, h⟩ <;> rw [h]
  · exact .of_same rfl rfl
  · exact .of_heard rfl rfl rfl

omit [DecidableEq N] in
theorem contact_handleInstallSnapshot (cfg : Config N) (self : N) (now : Nat) (io : ChunkIo)
    (x : Node N C B) (req : InstallSnapshotRequest N B) :
    Contact now x (handleInstallSnapshot cfg self now io x req).1 := by
  rcases handleInstallSnapshot_eq cfg self now io x req with h | ⟨_, h⟩ <;> rw [h]
  · exact .of_same rfl rfl
  · exact .of_heard rfl rfl rfl

/-- **What a section does to a node's contact**, if a leader's vote is its own and nobody asks
itself for a vote. -/
theorem Section.contact {a : Action N C} (h : Section cfg s a n x)
    (hown : (s.node n).state = .leader → (s.node n).votedFor = some n)
    (hcalls : ∀ (i : Nat) c, s.votes[i]? = some c → c.pre = false → c.req.candidateId ≠ c.peer) :
    Contact (s.clock n) (s.node n) x := by
  cases h with
  | campaign =>
    exact ⟨.inr rfl, id, nofun⟩
  | requestVote hi =>
    exact contact_handleRequestVote _ _ _ fun hlead =>
      ⟨_, hown hlead, (hcalls _ _ hi rfl).symm⟩
  | voteReply | chunkReply => exact contact_observeTerm _ _ _
  | elected => exact ⟨.inl rfl, fun _ => rfl, fun _ _ _ => rfl⟩
  | appendEntries io hi => exact contact_handleAppendEntries _ _ _ _ _ _
  | appendReply hi =>
    rcases appendEntriesReply_eq cfg n (s.node n) _ _ _ _ with h | ⟨_, _, _, h⟩ <;> rw [h]
    · exact contact_observeTerm _ _ _
    · exact .of_same rfl rfl
  | chunk io hi hmu => exact contact_handleInstallSnapshot _ _ _ _ _ _
  | finishCompact walOk hj wal =>
    unfold compactFinish
    split_ifs <;> exact .of_same rfl rfl
  | commit hk hphase =>
    obtain ⟨c, hc, _⟩ := updateCommitIndex_eq cfg _ (s.node _)
    rw [hc]
    exact .of_same rfl rfl
  | rollback hk hphase =>
    unfold submitRollback
    split_ifs <;> exact .of_same rfl rfl
  | rename | finishInstall | snapshotSent | saveSnapshot | publish | persist | apply =>
    exact .of_same rfl rfl

/-! ## Along a run -/

section

variable [Fintype N] {cfg : Config N} {cb : Callbacks C B S} {s s' : Cluster N C B S}
  {a : Action N C}

/-- What contact times rest on. -/
structure ContactInv (s : Cluster N C B S) : Prop where
  election : ElectionInv s
  /-- A leader has voted for itself. -/
  own : ∀ n, (s.node n).state = .leader → (s.node n).votedFor = some n
  /-- Nobody asks itself for a vote. -/
  calls : ∀ (i : Nat) c, s.votes[i]? = some c → c.sender ≠ c.peer
  past : ∀ n, (s.node n).lastContact ≤ s.clock n

omit [DecidableEq N] in
theorem ContactInv.candidate_ne (h : ContactInv s) (i : Nat) (c : VoteCall N)
    (hc : s.votes[i]? = some c) (hp : c.pre = false) : c.req.candidateId ≠ c.peer := by
  rw [(h.election.calls i c hc hp).candidate]
  exact h.calls i c hc

theorem ContactInv.contact (h : ContactInv s) (hs : step cfg cb s a = some s') (n : N) :
    Contact (s.clock n) (s.node n) (s'.node n) :=
  (step_node hs).relate (R := fun n x y => Contact (s.clock n) x y) (fun _ => .of_same rfl rfl)
    (fun n _ hx => hx.contact (h.own n) h.candidate_ne) n

variable {n : N} {i : Nat}

/-- A leader's vote stays its own: it wins with its own vote, and keeps it as long as the term
lasts. -/
theorem Section.own {x : Node N C B} (h : Section cfg s a n x) (he : ElectionInv s)
    (hown : (s.node n).state = .leader → (s.node n).votedFor = some n) (hlead : x.state = .leader) :
    x.votedFor = some n := by
  have hdrift : Drift (s.node n) x → x.votedFor = some n := by
    intro hd
    rcases hd.state with hf | ⟨hst, hterm⟩
    · rw [hf] at hlead
      cases hlead
    · rw [hd.same hterm]
      exact hown (hst ▸ hlead)
  cases h with
  | campaign => cases hlead
  | @requestVote i sender _ req hi =>
    obtain ⟨y, r, hy⟩ : ∃ y r, handleRequestVote (s.clock n) (s.node n) req = (y, r) :=
      ⟨_, _, rfl⟩
    rw [hy] at hlead hdrift ⊢
    obtain ⟨_, hd⟩ | ⟨_, _, _, hv, hbefore, hf | ⟨hst, hterm⟩⟩ := handleRequestVote_spec _ _ _ hy
    · exact hdrift hd
    · rw [hf] at hlead
      cases hlead
    · -- the vote was there before, so it went to the same candidate
      rw [hown (hst ▸ hlead)] at hbefore
      obtain h | h := hbefore hterm.symm
      · cases h
      · rw [hv]
        exact h.symm
  | elected hb hcand hterm =>
    refine he.cast_now n n ?_
    rw [hterm]
    exact (he.ballots n _ hb).own
  | voteReply | chunkReply => exact hdrift (drift_observeTerm _ _)
  | appendEntries => exact hdrift (drift_handleAppendEntries _ _ _ _ _ _)
  | appendReply => exact hdrift (drift_appendEntriesReply _ _ _ _ _ _ _)
  | chunk => exact hdrift (drift_handleInstallSnapshot _ _ _ _ _ _)
  | finishCompact => exact hdrift (.of_standing (standing_compactFinish _ _ _))
  | commit => exact hdrift (.of_standing (standing_updateCommitIndex _ _ _))
  | rollback => exact hdrift (.of_standing (standing_submitRollback _ _ _))
  | rename | finishInstall | snapshotSent | saveSnapshot | publish | persist | apply =>
    exact hdrift (.of_standing rfl)

omit [Fintype N] in
theorem askers_step (h : ∀ (i : Nat) c, s.votes[i]? = some c → c.sender ≠ c.peer)
    (hs : step cfg cb s a = some s') (i : Nat) (c : VoteCall N) (hc : s'.votes[i]? = some c) :
    c.sender ≠ c.peer := by
  have hround : ∀ {n pre req}, (s.votes ++ voteCalls cfg n pre req)[i]? = some c →
      c.sender ≠ c.peer := by
    intro n pre req hc
    rcases getElem?_append_calls hc with hc | ⟨_, p, hp, rfl⟩
    · exact h i c hc
    · exact ((cfg.mem_peers n p).1 (mem_of_getElem? hp)).symm
  have hphase : ∀ {j d phase}, s.votes[j]? = some d →
      (s.votes.set j { d with phase := phase })[i]? = some c → c.sender ≠ c.peer := by
    intro j d phase hd hc
    rcases getElem?_set_phase hd hc with ⟨_, rfl⟩ | ⟨_, hc⟩
    · exact h j d hd
    · exact h i c hc
  cases ha : a.electoral with
  | false =>
    rw [(quiet_step ha hs).votes] at hc
    exact h i c hc
  | true =>
    cases a with
    | timerExpire n jitter =>
      obtain ⟨_, rfl⟩ := timerExpire_some hs
      exact h i c hc
    | startPreVote n =>
      obtain rfl | rfl := startPreVote_some hs
      · exact h i c hc
      · exact hround hc
    | campaign n =>
      obtain ⟨_, rfl⟩ := campaign_some hs
      exact hround hc
    | voteHandle j =>
      obtain ⟨_, _, _, _, hj, rfl⟩ | ⟨_, _, _, _, _, hj, _, rfl⟩ := voteHandle_some hs
      · exact hphase hj hc
      · exact hphase hj hc
    | voteReply j =>
      obtain ⟨_, _, _, _, _, hj, rfl⟩ | ⟨_, _, _, _, _, hj, _, rfl⟩ := voteReply_some hs
      · exact hphase hj hc
      · exact hphase hj hc
    | collect n takeResult =>
      obtain ⟨_, _, _, rfl⟩ | ⟨_, _, _, _, rfl⟩ := collect_some hs <;> exact h i c hc
    | finishBallot n =>
      obtain rfl | rfl | ⟨_, _, _, _, _, rfl⟩ := finishBallot_some hs <;> exact h i c hc
    | _ => cases ha

theorem ContactInv.step (h : ContactInv s) (hs : step cfg cb s a = some s') : ContactInv s' := by
  have hown : ∀ n, (s'.node n).state = .leader → (s'.node n).votedFor = some n :=
    (step_node hs).relate (R := fun n _ y => y.state = .leader → y.votedFor = some n) h.own
      fun n _ hx => hx.own h.election (h.own n)
  refine ⟨h.election.step hs, hown, askers_step h.calls hs, fun n => ?_⟩
  have hclock := (step_node hs).clock n
  rcases (h.contact hs n).time with ht | ht
  · rw [ht]
    exact (h.past n).trans hclock
  · rw [ht]
    exact hclock

omit [DecidableEq N] in
theorem contactInv_init (cb : Callbacks C B S) :
    ContactInv (Cluster.init cb : Cluster N C B S) where
  election := electionInv_init cb
  own := nofun
  calls := fun i c h => by simp [Cluster.init] at h
  past := fun _ => le_refl _

theorem contactInv_reach {ok : Cluster N C B S → Action N C → Prop}
    (h : Reach (MxKeys.Raft.step cfg cb) ok (Cluster.init cb) s) : ContactInv s :=
  h.invariant (contactInv_init cb) fun _ _ _ hi _ hs => hi.step hs

/-- **A leader's contact is not newer than any earlier moment of its term.** -/
theorem leader_contact (h : ContactInv s) (hlead : (s.node n).state = .leader)
    (hrun : Reach (MxKeys.Raft.step cfg cb) anyAction s s') (hlead' : (s'.node n).state = .leader)
    (hterm : (s'.node n).currentTerm = (s.node n).currentTerm) :
    (s'.node n).lastContact ≤ s.clock n := by
  -- the term is won already, so its leader can only have been its leader before
  have hinv : ContactInv s' ∧ ((s.node n).currentTerm, n) ∈ s'.elections ∧
      ((s'.node n).state = .leader → (s'.node n).currentTerm = (s.node n).currentTerm →
        (s'.node n).lastContact ≤ s.clock n) := by
    refine hrun.invariant (P := fun u => ContactInv u ∧ ((s.node n).currentTerm, n) ∈ u.elections ∧
      ((u.node n).state = .leader → (u.node n).currentTerm = (s.node n).currentTerm →
        (u.node n).lastContact ≤ s.clock n))
      ⟨h, h.election.leads n hlead, fun _ _ => h.past n⟩ ?_
    rintro u b u' ⟨hu, hwon, hle⟩ - hb
    refine ⟨hu.step hb, elections_mono hb _ hwon, fun hl ht => ?_⟩
    obtain ⟨hsame, hst⟩ := leader_step hb hl
    rw [hsame] at ht
    have hst : (u.node n).state = .leader := by
      rcases hst with hst | hst
      · exact hst
      · rw [← ht] at hwon
        exact absurd hwon (hu.election.open_ n hst)
    rw [(hu.contact hb n).served hst hl hsame]
    exact hle hst ht
  exact hinv.2.2 hlead' hterm

/-- `m` has handled an `AppendEntries` of `leader` that was not stale, less than an election timeout
ago. -/
def HeardFrom (cfg : Config N) (cb : Callbacks C B S) (s : Cluster N C B S) (leader m : N) : Prop :=
  ∃ t u i io nextIdx req, Reach (MxKeys.Raft.step cfg cb) anyAction (Cluster.init cb) t ∧
    t.appends[i]? = some ⟨leader, m, nextIdx, req, .sent⟩ ∧ (t.node m).currentTerm ≤ req.term ∧
    MxKeys.Raft.step cfg cb t (.appendHandle i io) = some u ∧
    Reach (MxKeys.Raft.step cfg cb) anyAction u s ∧ s.clock m - t.clock m < cfg.electionTimeout

variable {leader m : N}

/-- **A node that has heard from a leader lately refuses every probe.** -/
theorem heard_refuses (h : HeardFrom cfg cb s leader m) :
    ¬WouldGrant cfg s n m := by
  obtain ⟨t, u, i, io, nextIdx, req, ht, hi, hterm, hu, hrun, hago⟩ := h
  obtain ⟨_, _, _, _, x, r, hi', hx, rfl⟩ := appendHandle_some hu
  obtain ⟨-, rfl, -, rfl, -⟩ := AppendCall.mk.inj (some.inj (hi.symm.trans hi'))
  have hstart : t.clock m ≤ x.lastContact ∧ x.leaderId.isSome := by
    obtain ⟨log, wal, c, heq⟩ := handleAppendEntries_heard cfg m (t.clock m) io _ req hterm
    rw [hx] at heq
    obtain rfl : x = _ := heq
    exact ⟨le_refl _, rfl⟩
  -- from there on the contact time only rises and the leader stays known
  obtain ⟨_, htime, hknown⟩ : ContactInv s ∧ t.clock m ≤ (s.node m).lastContact ∧
      (s.node m).leaderId.isSome := by
    refine hrun.invariant (P := fun v => ContactInv v ∧ t.clock m ≤ (v.node m).lastContact ∧
      (v.node m).leaderId.isSome) ⟨(contactInv_reach ht).step hu, ?_⟩ ?_
    · simpa using hstart
    · rintro v b v' ⟨hv, htime, hknown⟩ - hb
      have hc := hv.contact hb m
      refine ⟨hv.step hb, ?_, hc.known hknown⟩
      rcases hc.time with h | h
      · rw [h]
        exact htime
      · rw [h]
        exact htime.trans (hv.past m)
  exact fun hgrant => hgrant.2.1 ⟨by omega, hknown⟩

/-! ## The count -/

/-- **When a round against a followed leader fails.**  The leader has held its term for an election
timeout, a majority that contains it has heard from it within one, and the probing node is not part
of that majority.  The round fails unless the cluster is odd, the majority is bare, every other node
outside it grants, and the leader itself has no objection to the candidate's term and log. -/
theorem preVote_fails_iff {s₀ s : Cluster N C B S} {leader n : N} {M : Finset N}
    (h₀ : Reach (MxKeys.Raft.step cfg cb) anyAction (Cluster.init cb) s₀)
    (hlead₀ : (s₀.node leader).state = .leader)
    (hrun : Reach (MxKeys.Raft.step cfg cb) anyAction s₀ s)
    (hlead : (s.node leader).state = .leader)
    (hterm : (s.node leader).currentTerm = (s₀.node leader).currentTerm)
    (hlong : cfg.electionTimeout ≤ s.clock leader - s₀.clock leader)
    (hM : Majority M) (hmem : leader ∈ M)
    (hheard : ∀ m ∈ M, m ≠ leader → HeardFrom cfg cb s leader m)
    (hn : n ∉ M) {order : List N} (horder : order.Perm (cfg.peers n)) :
    runPreVote cfg s n order = false ↔
      ¬(Odd (Fintype.card N) ∧ M.card = Fintype.card N / 2 + 1 ∧
        (∀ p, p ∉ M → p ≠ n → WouldGrant cfg s n p) ∧
        (s.node leader).currentTerm ≤ (s.node n).currentTerm + 1 ∧
        (s.node leader).isLogUpToDate (s.node n).lastLogIndexTerm.1
          (s.node n).lastLogIndexTerm.2 = true) := by
  have hne : leader ≠ n := fun h => hn (h ▸ hmem)
  have hpeers : (cfg.peers n).length ≠ 0 := by
    have := length_pos_of_mem ((cfg.mem_peers n leader).2 hne)
    omega
  have hcontact := leader_contact (contactInv_reach h₀) hlead₀ hrun hlead hterm
  have hgrant : WouldGrant cfg s n leader ↔
      (s.node leader).currentTerm ≤ (s.node n).currentTerm + 1 ∧
        (s.node leader).isLogUpToDate (s.node n).lastLogIndexTerm.1
          (s.node n).lastLogIndexTerm.2 = true := by
    unfold WouldGrant
    constructor
    · exact fun h => ⟨h.1, h.2.2⟩
    · exact fun h => ⟨h.1, fun hlate => by omega, h.2⟩
  -- the peers that may grant: the leader, and whoever is outside the majority
  have hsub : (Finset.univ.filter fun p => p ≠ n ∧ WouldGrant cfg s n p) ⊆
      insert leader (Mᶜ.erase n) := by
    intro p hp
    obtain ⟨-, hpn, hp⟩ := Finset.mem_filter.1 hp
    by_cases hpm : p ∈ M
    · by_cases hpl : p = leader
      · rw [hpl]
        exact Finset.mem_insert_self _ _
      · exact absurd hp (heard_refuses (hheard p hpm hpl))
    · exact Finset.mem_insert_of_mem (Finset.mem_erase.2 ⟨hpn, Finset.mem_compl.2 hpm⟩)
  have hcard : (insert leader (Mᶜ.erase n)).card = Fintype.card N - M.card := by
    have hpos : 0 < Mᶜ.card := Finset.card_pos.2 ⟨n, Finset.mem_compl.2 hn⟩
    rw [Finset.card_insert_of_notMem (by simp [hmem]),
      Finset.card_erase_of_mem (Finset.mem_compl.2 hn), ← Finset.card_compl]
    omega
  have hle := Finset.card_le_card hsub
  rw [hcard] at hle
  have hfits : M.card ≤ Fintype.card N := Finset.card_le_univ M
  unfold Majority at hM
  rw [← Bool.not_eq_true, not_iff_not, runPreVote_iff hpeers horder]
  constructor
  · intro hmany
    have hall := Finset.eq_of_subset_of_card_le hsub (by rw [hcard]; omega)
    have hall : ∀ p ∈ insert leader (Mᶜ.erase n), WouldGrant cfg s n p := by
      intro p hp
      rw [← hall] at hp
      exact (Finset.mem_filter.1 hp).2.2
    refine ⟨Nat.odd_iff.2 (by omega), by omega, fun p hp hpn => hall p ?_,
      hgrant.1 (hall leader (Finset.mem_insert_self _ _))⟩
    exact Finset.mem_insert_of_mem (Finset.mem_erase.2 ⟨hpn, Finset.mem_compl.2 hp⟩)
  · rintro ⟨hodd, hbare, hothers, hself⟩
    have hall : insert leader (Mᶜ.erase n) ⊆
        Finset.univ.filter fun p => p ≠ n ∧ WouldGrant cfg s n p := by
      intro p hp
      refine Finset.mem_filter.2 ⟨Finset.mem_univ p, ?_⟩
      rcases Finset.mem_insert.1 hp with rfl | hp
      · exact ⟨hne, hgrant.2 hself⟩
      · obtain ⟨hpn, hp⟩ := Finset.mem_erase.1 hp
        exact ⟨hpn, hothers p (Finset.mem_compl.1 hp) hpn⟩
    have hge := Finset.card_le_card hall
    rw [hcard] at hge
    have := Nat.odd_iff.1 hodd
    omega

omit [Fintype N] in
theorem heardFrom_of_handled {t : Cluster N C B S} {io : AppendIo}
    (ht : Reach (MxKeys.Raft.step cfg cb) anyAction (Cluster.init cb) t)
    (hi : (t.appends[i]?).map (fun c => (c.sender, c.peer,
      decide ((t.node c.peer).currentTerm ≤ c.req.term))) = some (leader, m, true))
    (hs : MxKeys.Raft.step cfg cb t (.appendHandle i io) = some s)
    (hpos : 0 < cfg.electionTimeout) :
    HeardFrom cfg cb s leader m := by
  obtain ⟨sender, peer, nextIdx, req, x, r, hcall, _, hs'⟩ := appendHandle_some hs
  rw [hcall] at hi
  obtain ⟨rfl, hrest⟩ := Prod.mk.inj (some.inj hi)
  obtain ⟨rfl, hterm⟩ := Prod.mk.inj hrest
  refine ⟨t, s, i, io, nextIdx, req, ht, hcall, of_decide_eq_true hterm, hs, .refl, ?_⟩
  rw [hs', Nat.sub_self]
  exact hpos

omit [Fintype N] in
/-- A run of a schedule in which `leader` wins a term, keeps it, and is heard by `m` at the end. -/
theorem followed_of_schedule {β : Type*} (cfg : Config N) (cb : Callbacks C B S) (leader m : N)
    (win wait : List (Action N C)) (obs : Cluster N C B S → β) {v : β} {T c c' : Nat}
    (hwin : (execute (MxKeys.Raft.step cfg cb) (fun _ _ => true) (Cluster.init cb) win).map
      (fun s => ((s.node leader).state, (s.node leader).currentTerm, s.clock leader)) =
        some (.leader, T, c))
    (hwait : (execute (MxKeys.Raft.step cfg cb) (fun _ _ => true) (Cluster.init cb)
      (win ++ wait)).map (fun t => (t.appends[i]?).map fun c => (c.sender, c.peer,
        decide ((t.node c.peer).currentTerm ≤ c.req.term))) = some (some (leader, m, true)))
    (hend : (execute (MxKeys.Raft.step cfg cb) (fun _ _ => true) (Cluster.init cb)
      (win ++ wait ++ [.appendHandle i .ok])).map (fun s => (((s.node leader).state,
        (s.node leader).currentTerm, s.clock leader), obs s)) = some ((.leader, T, c'), v))
    (hpos : 0 < cfg.electionTimeout) :
    ∃ s₀ s, Reach (MxKeys.Raft.step cfg cb) anyAction (Cluster.init cb) s₀ ∧
      (s₀.node leader).state = .leader ∧ Reach (MxKeys.Raft.step cfg cb) anyAction s₀ s ∧
      (s.node leader).state = .leader ∧
      (s.node leader).currentTerm = (s₀.node leader).currentTerm ∧
      s.clock leader - s₀.clock leader = c' - c ∧ HeardFrom cfg cb s leader m ∧ obs s = v := by
  obtain ⟨s, hs, hobs⟩ := map_eq_some_iff.1 hend
  obtain ⟨t, ht, hlast⟩ := execute_split hs
  obtain ⟨s₀, hs₀, hmid⟩ := execute_split ht
  rw [hs₀] at hwin
  rw [ht] at hwait
  obtain ⟨hlead₀, hrest₀⟩ := Prod.mk.inj (some.inj hwin)
  obtain ⟨hterm₀, hclock₀⟩ := Prod.mk.inj hrest₀
  obtain ⟨hnode, hv⟩ := Prod.mk.inj hobs
  obtain ⟨hlead, hrest⟩ := Prod.mk.inj hnode
  obtain ⟨hterm, hclock⟩ := Prod.mk.inj hrest
  have hhandle : MxKeys.Raft.step cfg cb t (.appendHandle i .ok) = some s := by
    simpa [execute] using hlast
  refine ⟨s₀, s, reach_of_execute_any hs₀, hlead₀, ?_, hlead, hterm.trans hterm₀.symm, ?_, ?_, hv⟩
  · exact (reach_of_execute_any hmid).trans (reach_of_execute_any hlast)
  · rw [hclock, hclock₀]
  · exact heardFrom_of_handled (reach_of_execute_any ht) (some.inj hwait) hhandle hpos

end

/-- After `d` ticks of everybody, `n` sends a heartbeat to `peer`. -/
def heartbeatSchedule (everybody : List N) (d : Nat) (n peer : N) : List (Action N C) :=
  everybody.map (fun m => .tick m d) ++ [.sendStart n peer, .sendAppend 0]

/-- Node `0` of three has led for an election timeout with an entry that node `2` does not have, and
node `1` has just heard from it: node `2` does not get past its probes. -/
theorem preVote_fails_behind :
    ∃ s : Cluster (Fin 3) Nat Nat Unit,
      Reach (step (.complete 3 2) .stateless) anyAction (Cluster.init .stateless) s ∧
      (s.node 0).state = .leader ∧ HeardFrom (.complete 3 2) .stateless s 0 1 ∧
      runPreVote (.complete 3 2) s 2 [0, 1] = false := by
  obtain ⟨s₀, s, h₀, hlead₀, hrun, hlead, hterm, hlong, hheard, hbehind⟩ :=
    followed_of_schedule (.complete 3 2) .stateless 0 1
      (electionSchedule [0, 1, 2] 2 0 [0] [2] ++ [.submit 0 7]) (heartbeatSchedule [0, 1, 2] 2 0 1)
      (fun s : Cluster (Fin 3) Nat Nat Unit => (s.node 0).isLogUpToDate
        (s.node 2).lastLogIndexTerm.1 (s.node 2).lastLogIndexTerm.2)
      (v := false) (i := 0) (T := 1) (c := 2) (by decide +kernel) (by decide +kernel)
      (show _ = some ((_, _, 4), _) by decide +kernel) (by decide)
  refine ⟨s, h₀.trans hrun, hlead, hheard, ?_⟩
  refine (preVote_fails_iff h₀ hlead₀ hrun hlead hterm (by rw [hlong]; decide)
    (M := {0, 1}) (by unfold Majority; decide) (by decide) ?_ (by decide) (by decide)).2 ?_
  · intro m hm hne
    obtain rfl : m = 1 := by
      simp only [Finset.mem_insert, Finset.mem_singleton] at hm
      exact hm.resolve_left hne
    exact hheard
  · rintro ⟨_, _, _, _, hlog⟩
    rw [hbehind] at hlog
    cases hlog

/-- **The leader's own vote.**  The same run without the entry: node `0` leads, node `1` has just
heard from it, and node `2` gets through its probes because the leader grants one. -/
theorem leader_grants_preVote :
    ∃ s₀ s : Cluster (Fin 3) Nat Nat Unit,
      Reach (step (.complete 3 2) .stateless) anyAction (Cluster.init .stateless) s₀ ∧
      (s₀.node 0).state = .leader ∧
      Reach (step (.complete 3 2) .stateless) anyAction s₀ s ∧ (s.node 0).state = .leader ∧
      (s.node 0).currentTerm = (s₀.node 0).currentTerm ∧ 2 ≤ s.clock 0 - s₀.clock 0 ∧
      Majority ({0, 1} : Finset (Fin 3)) ∧ HeardFrom (.complete 3 2) .stateless s 0 1 ∧
      runPreVote (.complete 3 2) s 2 [0, 1] = true := by
  obtain ⟨s₀, s, h₀, hlead₀, hrun, hlead, hterm, hlong, hheard, hround⟩ :=
    followed_of_schedule (.complete 3 2) .stateless 0 1 (electionSchedule [0, 1, 2] 2 0 [0] [2])
      (heartbeatSchedule [0, 1, 2] 2 0 1)
      (fun s : Cluster (Fin 3) Nat Nat Unit => runPreVote (.complete 3 2) s 2 [0, 1])
      (v := true) (i := 0) (T := 1) (c := 2) (by decide +kernel) (by decide +kernel)
      (show _ = some ((_, _, 4), _) by decide +kernel) (by decide)
  exact ⟨s₀, s, h₀, hlead₀, hrun, hlead, hterm, by rw [hlong], by unfold Majority; decide, hheard,
    hround⟩

end MxKeys.Raft
