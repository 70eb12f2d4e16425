/-
# MxKeys.Raft.Election — at most one leader per term, in every interleaving.

The invariant ties what a candidate counts to what voters recorded.  `votesCast` says who voted for
whom in which term; a voter's record is a function of the term because `votedFor` is cleared only
when the term rises.  A response that says "granted" stands for a recorded vote, each call of a
round goes to a different peer and is counted at most once, and so the grants of a round are
distinct recorded votes.  A win is then a majority of recorded votes, and two majorities of one term
meet.

The lock is released while votes come in.  Nothing is assumed about what happens meanwhile: the
re-check in `finishBallot` compares state and term, and terms only rise.
-/
import MxKeys.Lib.Quorum
import MxKeys.Raft.Standing

namespace MxKeys.Raft

open MxKeys.Lib
open List Option Function

variable {N C B S : Type*}

variable {cfg : Config N} {cb : Callbacks C B S} {s s' : Cluster N C B S} {n : N} {c : VoteCall N}
  {b : Ballot N} {pre : Bool} {req : RequestVoteRequest N} {i : Nat} {x : Node N C B}
  {a : Action N C} {ok : Cluster N C B S → Action N C → Prop}

/-! ## Calls and rounds -/

/-- A real vote request: who asked, in which term, and what a grant stands for. -/
structure CallInv (s : Cluster N C B S) (c : VoteCall N) : Prop where
  candidate : c.req.candidateId = c.sender
  term_le : c.req.term ≤ (s.node c.sender).currentTerm
  granted : ∀ r, c.phase = .answered r → r.voteGranted = true →
    (c.peer, c.req.term, c.sender) ∈ s.votesCast

/-- The peers a round has heard from. -/
def Ballot.heard (b : Ballot N) : List N := b.grants ++ b.results.map Prod.fst

/-- A round of real votes: its grants are distinct recorded votes. -/
structure BallotInv (s : Cluster N C B S) (n : N) (b : Ballot N) : Prop where
  own : (n, b.term, n) ∈ s.votesCast
  grants : ∀ p ∈ b.grants, (p, b.term, n) ∈ s.votesCast
  results : ∀ p, (p, true) ∈ b.results → (p, b.term, n) ∈ s.votesCast
  nodup : b.heard.Nodup
  not_self : n ∉ b.heard
  /-- Calls of the round carry its term, and a peer not heard from yet is in none of the lists. -/
  calls : ∀ i c, b.first ≤ i → s.votes[i]? = some c → c.pre = false → c.sender = n →
    c.req.term = b.term ∧ c.peer ≠ n ∧ (c.phase ≠ .finished → c.peer ∉ b.heard)
  distinct : ∀ i j c d, b.first ≤ i → b.first ≤ j → s.votes[i]? = some c → s.votes[j]? = some d →
    c.pre = false → d.pre = false → c.sender = n → d.sender = n → c.peer = d.peer → i = j

theorem CallInv.mono (h : CallInv s c)
    (hterm : ∀ n, (s.node n).currentTerm ≤ (s'.node n).currentTerm)
    (hcast : ∀ t ∈ s.votesCast, t ∈ s'.votesCast) : CallInv s' c :=
  ⟨h.candidate, le_trans h.term_le (hterm _), fun r hr hg => hcast _ (h.granted r hr hg)⟩

theorem BallotInv.mono (h : BallotInv s n b) (hcast : ∀ t ∈ s.votesCast, t ∈ s'.votesCast)
    (hvotes : s'.votes = s.votes) :
    BallotInv s' n b := by
  obtain ⟨hown, hgrants, hresults, hnodup, hself, hcalls, hdistinct⟩ := h
  refine ⟨hcast _ hown, fun p hp => hcast _ (hgrants p hp), fun p hp => hcast _ (hresults p hp),
    hnodup, hself, ?_, ?_⟩
  · rw [hvotes]
    exact hcalls
  · rw [hvotes]
    exact hdistinct

theorem mem_voteCalls (h : (voteCalls cfg n pre req)[i]? = some c) :
    ∃ p, (cfg.peers n)[i]? = some p ∧ c = ⟨n, p, pre, req, .sent⟩ := by
  unfold voteCalls at h
  rw [getElem?_map] at h
  obtain ⟨p, hp, rfl⟩ := map_eq_some_iff.1 h
  exact ⟨p, hp, rfl⟩

/-- A call is an old one or one of the new round. -/
theorem getElem?_append_calls {votes : List (VoteCall N)}
    (h : (votes ++ voteCalls cfg n pre req)[i]? = some c) :
    votes[i]? = some c ∨ (votes.length ≤ i ∧
      ∃ p, (cfg.peers n)[i - votes.length]? = some p ∧ c = ⟨n, p, pre, req, .sent⟩) := by
  rcases lt_or_ge i votes.length with hlt | hge
  · rw [getElem?_append_left hlt] at h
    exact .inl h
  · rw [getElem?_append_right hge] at h
    exact .inr ⟨hge, mem_voteCalls h⟩

/-- Rounds already under way do not see the calls of another round. -/
theorem BallotInv.append {m : N} (h : BallotInv s m b) (hcast : ∀ t ∈ s.votesCast, t ∈ s'.votesCast)
    (hv : s'.votes = s.votes ++ voteCalls cfg n pre req) (hne : pre = false → m ≠ n) :
    BallotInv s' m b := by
  obtain ⟨hown, hgrants, hresults, hnodup, hself, hcalls, hdistinct⟩ := h
  have hold : ∀ (i : Nat) c, s'.votes[i]? = some c → c.pre = false → c.sender = m →
      s.votes[i]? = some c := by
    intro i c hc hp hs
    rw [hv] at hc
    rcases getElem?_append_calls hc with hc | ⟨_, p, _, rfl⟩
    · exact hc
    · exact absurd hs.symm (hne hp)
  refine ⟨hcast _ hown, fun p hp => hcast _ (hgrants p hp), fun p hp => hcast _ (hresults p hp),
    hnodup, hself, ?_, ?_⟩
  · intro i c hi hc hp hs
    exact hcalls i c hi (hold i c hc hp hs) hp hs
  · intro i j c d hi hj hc hd hpc hpd hsc hsd
    exact hdistinct i j c d hi hj (hold i c hc hpc hsc) (hold j d hd hpd hsd) hpc hpd hsc hsd

/-- Replacing a call by one that differs only in its phase. -/
theorem getElem?_set_phase {votes : List (VoteCall N)} {j : Nat} {d : VoteCall N}
    {phase : Phase RequestVoteResponse} (hi : votes[i]? = some c)
    (h : (votes.set i { c with phase := phase })[j]? = some d) :
    (i = j ∧ d = { c with phase := phase }) ∨ (i ≠ j ∧ votes[j]? = some d) := by
  by_cases hij : i = j
  · subst hij
    obtain ⟨hlt, _⟩ := List.getElem?_eq_some_iff.1 hi
    rw [getElem?_set_self hlt] at h
    exact .inl ⟨rfl, (some.inj h).symm⟩
  · rw [getElem?_set_ne hij] at h
    exact .inr ⟨hij, h⟩

/-- A call moves to another phase: rounds keep their invariant if the call was still open. -/
theorem BallotInv.setPhase {phase : Phase RequestVoteResponse} (h : BallotInv s n b)
    (hi : s.votes[i]? = some c) (hopen : c.phase ≠ .finished)
    (hcast : ∀ t ∈ s.votesCast, t ∈ s'.votesCast)
    (hv : s'.votes = s.votes.set i { c with phase := phase }) : BallotInv s' n b := by
  obtain ⟨hown, hgrants, hresults, hnodup, hself, hcalls, hdistinct⟩ := h
  -- an old call of the round at the same position, with the same peer
  have hold : ∀ (j : Nat) d, s'.votes[j]? = some d → ∃ d', s.votes[j]? = some d' ∧
      d.sender = d'.sender ∧ d.peer = d'.peer ∧ d.pre = d'.pre ∧ d.req = d'.req ∧
      (d.phase ≠ .finished → d'.phase ≠ .finished) := by
    intro j d hd
    rw [hv] at hd
    rcases getElem?_set_phase hi hd with ⟨rfl, rfl⟩ | ⟨_, hd⟩
    · exact ⟨c, hi, rfl, rfl, rfl, rfl, fun _ => hopen⟩
    · exact ⟨d, hd, rfl, rfl, rfl, rfl, fun hp => hp⟩
  refine ⟨hcast _ hown, fun p hp => hcast _ (hgrants p hp), fun p hp => hcast _ (hresults p hp),
    hnodup, hself, ?_, ?_⟩
  · intro j d hj hd hp hs
    obtain ⟨d', hd', hs', hpeer, hpre, hreq, hph⟩ := hold j d hd
    obtain ⟨hterm, hne, hnot⟩ := hcalls j d' hj hd' (hpre ▸ hp) (hs' ▸ hs)
    rw [hreq, hpeer]
    exact ⟨hterm, hne, fun hp => hnot (hph hp)⟩
  · intro j k d e hj hk hd he hpd hpe hsd hse hpeer
    obtain ⟨d', hd', hs₁, hp₁, hpre₁, _, _⟩ := hold j d hd
    obtain ⟨e', he', hs₂, hp₂, hpre₂, _, _⟩ := hold k e he
    exact hdistinct j k d' e' hj hk hd' he' (hpre₁ ▸ hpd) (hpre₂ ▸ hpe) (hs₁ ▸ hsd) (hs₂ ▸ hse)
      (hp₁ ▸ hp₂ ▸ hpeer)

/-- The channel of a round takes the result of one of its own open calls. -/
theorem BallotInv.push {peer : N} {r : RequestVoteResponse} {granted : Bool} (h : BallotInv s n b)
    (hi : s.votes[i]? = some ⟨n, peer, false, req, .answered r⟩) (hfirst : b.first ≤ i)
    (hgrant : granted = true → (peer, req.term, n) ∈ s.votesCast)
    (hcast : s'.votesCast = s.votesCast)
    (hv : s'.votes = s.votes.set i ⟨n, peer, false, req, .finished⟩) :
    BallotInv s' n { b with results := b.results ++ [(peer, granted)] } := by
  obtain ⟨hown, hgrants, hresults, hnodup, hself, hcalls, hdistinct⟩ := h
  obtain ⟨hterm, hne, hnot⟩ := hcalls i _ hfirst hi rfl rfl
  have hfresh : peer ∉ b.heard := hnot nofun
  have hheard : Ballot.heard { b with results := b.results ++ [(peer, granted)] } =
      b.heard ++ [peer] := by simp [Ballot.heard]
  have hold : ∀ (j : Nat) d, s'.votes[j]? = some d →
      (i = j ∧ d = ⟨n, peer, false, req, .finished⟩) ∨ (i ≠ j ∧ s.votes[j]? = some d) := by
    intro j d hd
    rw [hv] at hd
    exact getElem?_set_phase hi hd
  refine ⟨by rw [hcast]; exact hown, fun p hp => by rw [hcast]; exact hgrants p hp, ?_, ?_, ?_,
    ?_, ?_⟩
  · intro p hp
    rw [hcast]
    rcases mem_append.1 hp with hp | hp
    · exact hresults p hp
    · obtain ⟨rfl, rfl⟩ := Prod.mk.inj (mem_singleton.1 hp)
      have hg := hgrant rfl
      rw [show req.term = b.term from hterm] at hg
      exact hg
  · rw [hheard]
    refine hnodup.append (nodup_singleton _) ?_
    intro p hp hp'
    rw [mem_singleton.1 hp'] at hp
    exact hfresh hp
  · rw [hheard]
    intro hn
    rcases mem_append.1 hn with hn | hn
    · exact hself hn
    · exact hne (mem_singleton.1 hn).symm
  · intro j d hj hd hp hs
    rw [hheard]
    rcases hold j d hd with ⟨rfl, rfl⟩ | ⟨hij, hd⟩
    · exact ⟨hterm, hne, fun hph => absurd rfl hph⟩
    · obtain ⟨hterm', hne', hnot'⟩ := hcalls j d hj hd hp hs
      refine ⟨hterm', hne', fun hph hmem => ?_⟩
      rcases mem_append.1 hmem with hmem | hmem
      · exact hnot' hph hmem
      · exact hij (hdistinct i j _ d hfirst hj hi hd rfl hp rfl hs
          (mem_singleton.1 hmem).symm)
  · intro j k d e hj hk hd he hpd hpe hsd hse hpeer
    rcases hold j d hd with ⟨hj', rfl⟩ | ⟨_, hd⟩ <;> rcases hold k e he with ⟨hk', rfl⟩ | ⟨_, he⟩
    · exact hj'.symm.trans hk'
    · subst hj'
      exact hdistinct i k _ e hj hk hi he rfl hpe rfl hse hpeer
    · subst hk'
      exact hdistinct j i d _ hj hk hd hi hpd rfl hsd rfl hpeer
    · exact hdistinct j k d e hj hk hd he hpd hpe hsd hse hpeer

/-- One round of the collecting loop keeps the grants distinct recorded votes. -/
theorem BallotInv.collect {b' : Ballot N} {needed : Nat} (h : BallotInv s n b)
    (hb : b.collect needed takeResult = some b') : BallotInv s n b' := by
  obtain ⟨hown, hgrants, hresults, hnodup, hself, hcalls, hdistinct⟩ := h
  unfold Ballot.collect at hb
  split_ifs at hb
  split at hb
  · cases hb
    exact ⟨hown, hgrants, hresults, hnodup, hself, hcalls, hdistinct⟩
  · cases hb
  · rename_i p granted rest hres
    cases hb
    have hmem : (p, granted) ∈ b.results := by rw [hres]; exact mem_cons_self
    -- what is heard afterwards is a permutation of a part of what was heard before
    obtain ⟨l, hperm, hsub⟩ : ∃ l, Perm (Ballot.heard { b with
        grants := if granted then p :: b.grants else b.grants
        left := b.left - 1
        results := rest }) l ∧ l.Sublist b.heard := by
      cases granted with
      | true =>
        refine ⟨b.heard, ?_, Sublist.refl _⟩
        simp only [Ballot.heard, hres, map_cons, if_true, cons_append]
        exact perm_middle.symm
      | false =>
        refine ⟨b.grants ++ rest.map Prod.fst, by simp [Ballot.heard], ?_⟩
        simp only [Ballot.heard, hres, map_cons]
        exact (Sublist.refl _).append (sublist_cons_self _ _)
    have hsubset : ∀ q, q ∈ Ballot.heard { b with
        grants := if granted then p :: b.grants else b.grants
        left := b.left - 1
        results := rest } → q ∈ b.heard :=
      fun q hq => hsub.subset (hperm.mem_iff.1 hq)
    refine ⟨hown, ?_, ?_, ?_, fun hn => hself (hsubset n hn), ?_, hdistinct⟩
    · intro q hq
      cases granted with
      | true =>
        rcases mem_cons.1 hq with rfl | hq
        · exact hresults q hmem
        · exact hgrants q hq
      | false => exact hgrants q hq
    · intro q hq
      refine hresults q ?_
      rw [hres]
      exact mem_cons_of_mem _ hq
    · exact hperm.nodup_iff.2 (hnodup.sublist hsub)
    · intro i c hi hc hp hs
      obtain ⟨hterm, hne, hnot⟩ := hcalls i c hi hc hp hs
      exact ⟨hterm, hne, fun hph hmem => hnot hph (hsubset _ hmem)⟩

theorem Drift.leads {y : Node N C B} (hd : Drift x y) (hl : y.state = .leader) :
    y.currentTerm = x.currentTerm ∧ (x.state = .leader ∨ x.state = .candidate) := by
  rcases hd.state with hf | ⟨hst, hterm⟩
  · rw [hf] at hl
    cases hl
  · exact ⟨hterm, .inl (hst ▸ hl)⟩

section

variable [DecidableEq N]

/-- The rounds after one timer is set. -/
theorem rounds_update {f : N → Timer N} {t : Timer N} {P : N → Ballot N → Prop}
    (ht : ∀ b, t = .election b → P n b) (h : ∀ m, m ≠ n → ∀ b, f m = .election b → P m b) :
    ∀ m b, update f n t m = .election b → P m b :=
  (forall_update_iff _ fun m t => ∀ b, t = Timer.election b → P m b).2 ⟨ht, h⟩

/-- The round a campaign starts. -/
theorem ballotInv_campaign (hs : s.campaign cfg n = some s') :
    BallotInv s' n
      ⟨(s.node n).currentTerm + 1, s.votes.length, [], (cfg.peers n).length, []⟩ := by
  obtain ⟨_, rfl⟩ := campaign_some hs
  have hnew : ∀ (i : Nat) c, s.votes.length ≤ i → (s.votes ++ voteCalls cfg n false
      ((s.node n).voteRequest n ((s.node n).currentTerm + 1)))[i]? = some c →
      ∃ p, (cfg.peers n)[i - s.votes.length]? = some p ∧
        c = ⟨n, p, false, (s.node n).voteRequest n ((s.node n).currentTerm + 1), .sent⟩ := by
    intro i c hi hc
    rcases getElem?_append_calls hc with hc | ⟨_, hp⟩
    · exact absurd (List.getElem?_eq_some_iff.1 hc).1 (by omega)
    · exact hp
  refine ⟨mem_cons_self, by simp, by simp, by simp [Ballot.heard], by simp [Ballot.heard],
    ?_, ?_⟩
  · intro i c hi hc _ _
    obtain ⟨p, hp, rfl⟩ := hnew i c hi hc
    exact ⟨rfl, (cfg.mem_peers n p).1 (mem_of_getElem? hp), by simp [Ballot.heard]⟩
  · intro i j c d hi hj hc hd _ _ _ _ hpeer
    obtain ⟨p, hp, rfl⟩ := hnew i c hi hc
    obtain ⟨q, hq, rfl⟩ := hnew j d hj hd
    -- the peers of a node are listed once
    obtain rfl : p = q := hpeer
    have hi' := (List.getElem?_eq_some_iff.1 hp).1
    have hidx := (getElem?_inj hi' (cfg.peers_nodup n)).1 (hp.trans hq.symm)
    have hile : s.votes.length ≤ i := hi
    have hjle : s.votes.length ≤ j := hj
    omega

theorem Section.leads (h : Section cfg s a n x) (hl : x.state = .leader) :
    x.currentTerm = (s.node n).currentTerm ∧
      ((s.node n).state = .leader ∨ (s.node n).state = .candidate) := by
  cases ha : a.electoral with
  | false => exact (h.drift ha).leads hl
  | true =>
    cases h with
    | campaign => cases hl
    | @requestVote _ _ _ req =>
      rcases state_handleRequestVote (s.clock n) (s.node n) req with hf | ⟨hst, hterm⟩
      · cases hl.symm.trans hf
      · exact ⟨hterm, .inl (hst.symm.trans hl)⟩
    | voteReply => exact (drift_observeTerm ..).leads hl
    | elected _ hcand => exact ⟨rfl, .inr hcand⟩
    | publish _ _ hpub => cases a <;> first | (cases ha; done) | cases hpub
    | _ => cases ha

/-- A leader after a step was leader of the same term before, or has just won the term it was a
candidate of. -/
theorem leader_step (hs : step cfg cb s a = some s') (hl : (s'.node n).state = .leader) :
    (s'.node n).currentTerm = (s.node n).currentTerm ∧
      ((s.node n).state = .leader ∨ (s.node n).state = .candidate) :=
  (step_node hs).relate (R := fun _ x y => y.state = .leader →
      y.currentTerm = x.currentTerm ∧ (x.state = .leader ∨ x.state = .candidate))
    (fun _ hl => ⟨rfl, .inl hl⟩) (fun _ _ h => h.leads) n hl

/-- The record of elections is never shortened. -/
theorem elections_mono (hs : step cfg cb s a = some s') :
    ∀ t ∈ s.elections, t ∈ s'.elections := by
  intro t ht
  cases a with
  | finishBallot n =>
    obtain rfl | rfl | ⟨_, _, _, _, _, rfl⟩ := finishBallot_some hs
    · exact ht
    · exact ht
    · exact mem_cons_of_mem _ ht
  | _ =>
    rw [(frame_step hs).elections rfl]
    exact ht

theorem elections_reach {t : Nat × N} (h : Reach (step cfg cb) ok s s') (ht : t ∈ s.elections) :
    t ∈ s'.elections :=
  h.invariant (P := fun u => t ∈ u.elections) ht fun _ _ _ hi _ hs => elections_mono hs _ hi

end

/-! ## The invariant -/

variable [Fintype N]

/-- The invariant behind election safety. -/
structure ElectionInv (s : Cluster N C B S) : Prop where
  cast_le : ∀ v T c, (v, T, c) ∈ s.votesCast → T ≤ (s.node v).currentTerm
  cast_now : ∀ v c, (v, (s.node v).currentTerm, c) ∈ s.votesCast → (s.node v).votedFor = some c
  cast_fun : ∀ v T c d, (v, T, c) ∈ s.votesCast → (v, T, d) ∈ s.votesCast → c = d
  voted : ∀ v c, (s.node v).votedFor = some c → (v, (s.node v).currentTerm, c) ∈ s.votesCast
  calls : ∀ (i : Nat) c, s.votes[i]? = some c → c.pre = false → CallInv s c
  ballots : ∀ n b, s.timer n = .election b → BallotInv s n b
  leads : ∀ n, (s.node n).state = .leader → ((s.node n).currentTerm, n) ∈ s.elections
  won : ∀ T n, (T, n) ∈ s.elections → ∃ Q, Majority Q ∧ ∀ v ∈ Q, (v, T, n) ∈ s.votesCast
  won_le : ∀ T n, (T, n) ∈ s.elections → T ≤ (s.node n).currentTerm
  /-- A candidate has not won its term yet. -/
  open_ : ∀ n, (s.node n).state = .candidate → ((s.node n).currentTerm, n) ∉ s.elections

theorem electionInv_init (cb : Callbacks C B S) :
    ElectionInv (Cluster.init cb : Cluster N C B S) where
  cast_le := nofun
  cast_now := nofun
  cast_fun := nofun
  voted := nofun
  calls := fun i c h => by simp [Cluster.init] at h
  ballots := nofun
  leads := nofun
  won := nofun
  won_le := nofun
  open_ := nofun

/-! ## Steps that leave elections alone -/

theorem ElectionInv.quiet (h : ElectionInv s) (hq : Quiet s s') : ElectionInv s' := by
  obtain ⟨ht, hv, hc, he, hd⟩ := hq
  have hcast : ∀ t ∈ s.votesCast, t ∈ s'.votesCast := fun t h => by rw [hc]; exact h
  refine ⟨?_, ?_, ?_, ?_, ?_, ?_, ?_, ?_, ?_, ?_⟩
  · intro v T c hm
    rw [hc] at hm
    exact (h.cast_le v T c hm).trans (hd v).term_le
  · intro v c hm
    rw [hc] at hm
    have hle := h.cast_le v _ c hm
    have heq := hle.antisymm (hd v).term_le
    rw [(hd v).same heq]
    rw [heq] at hm
    exact h.cast_now v c hm
  · rw [hc]
    exact h.cast_fun
  · intro v c hvote
    rw [hc]
    rcases lt_or_ge (s.node v).currentTerm (s'.node v).currentTerm with hlt | hge
    · rw [(hd v).fresh hlt] at hvote
      cases hvote
    · have heq := hge.antisymm (hd v).term_le
      rw [(hd v).same heq] at hvote
      rw [heq]
      exact h.voted v c hvote
  · intro i c hm hp
    rw [hv] at hm
    exact (h.calls i c hm hp).mono (fun n => (hd n).term_le) hcast
  · intro n b hb
    rw [ht] at hb
    exact (h.ballots n b hb).mono hcast hv
  · intro n hl
    rw [he]
    rcases (hd n).state with hf | ⟨hs, hterm⟩
    · rw [hf] at hl
      cases hl
    · rw [hterm]
      exact h.leads n (hs ▸ hl)
  · rw [hc, he]
    exact h.won
  · intro T n hm
    rw [he] at hm
    exact (h.won_le T n hm).trans (hd n).term_le
  · intro n hcand
    rw [he]
    rcases (hd n).state with hf | ⟨hs, hterm⟩
    · rw [hf] at hcand
      cases hcand
    · rw [hterm]
      exact h.open_ n (hs ▸ hcand)

/-- The records stay, and the calls and the rounds after the step are in order. -/
theorem ElectionInv.recorded (h : ElectionInv s) (hnode : s'.node = s.node)
    (hc : s'.votesCast = s.votesCast) (he : s'.elections = s.elections)
    (hcalls : ∀ (i : Nat) c, s'.votes[i]? = some c → c.pre = false → CallInv s' c)
    (hb : ∀ n b, s'.timer n = .election b → BallotInv s' n b) : ElectionInv s' := by
  refine ⟨?_, ?_, ?_, ?_, hcalls, hb, ?_, ?_, ?_, ?_⟩
  · rw [hc, hnode]
    exact h.cast_le
  · rw [hc, hnode]
    exact h.cast_now
  · rw [hc]
    exact h.cast_fun
  · rw [hc, hnode]
    exact h.voted
  · rw [he, hnode]
    exact h.leads
  · rw [hc, he]
    exact h.won
  · rw [he, hnode]
    exact h.won_le
  · rw [he, hnode]
    exact h.open_

/-- A change of timers keeps the invariant if the rounds in it are in order. -/
theorem ElectionInv.timers (h : ElectionInv s) (hnode : s'.node = s.node)
    (hv : s'.votes = s.votes) (hc : s'.votesCast = s.votesCast) (he : s'.elections = s.elections)
    (hb : ∀ n b, s'.timer n = .election b → BallotInv s' n b) : ElectionInv s' := by
  refine h.recorded hnode hc he (fun i c hm hp => ?_) hb
  rw [hv] at hm
  exact (h.calls i c hm hp).mono (fun n => by rw [hnode]) (fun t ht => by rw [hc]; exact ht)

variable [DecidableEq N]

/-- Setting a timer to something that is not a round of real votes. -/
theorem ElectionInv.setTimer (h : ElectionInv s) {t : Timer N} (ht : ∀ b, t ≠ .election b) :
    ElectionInv (s.setTimer n t) := by
  exact h.timers rfl rfl rfl rfl (rounds_update (fun b hb => absurd hb (ht b))
    fun m _ b hb => (h.ballots m b hb).mono (fun _ h => h) rfl)

/-! ## Campaigns -/

theorem ElectionInv.startPreVote (h : ElectionInv s) (hs : s.startPreVote cfg n = some s') :
    ElectionInv s' := by
  obtain rfl | rfl := startPreVote_some hs
  · exact h.setTimer nofun
  · refine h.recorded rfl rfl rfl ?_ ?_
    · intro i c hc hp
      rcases getElem?_append_calls hc with hc | ⟨_, p, _, rfl⟩
      · exact (h.calls i c hc hp).mono (fun _ => le_refl _) (fun _ ht => ht)
      · cases hp
    · exact rounds_update nofun fun m _ b hb =>
        (h.ballots m b hb).append (fun _ ht => ht) rfl nofun

variable {v c : N} {takeResult : Bool}

/-! ## Votes -/

/-- **A term is won at most once.** -/
theorem ElectionInv.unique (h : ElectionInv s) {T : Nat} {m : N} (hn : (T, n) ∈ s.elections)
    (hm : (T, m) ∈ s.elections) : n = m := by
  obtain ⟨P, hP, hvn⟩ := h.won T n hn
  obtain ⟨Q, hQ, hvm⟩ := h.won T m hm
  obtain ⟨v, hvP, hvQ⟩ := hP.inter hQ
  exact h.cast_fun v T n m (hvn v hvP) (hvm v hvQ)

omit [DecidableEq N] in
/-- A vote already recorded for the term is the vote being granted. -/
theorem ElectionInv.grant_only (h : ElectionInv s) (hle : (s.node v).currentTerm ≤ x.currentTerm)
    (hfree : (s.node v).currentTerm = x.currentTerm →
      (s.node v).votedFor = none ∨ (s.node v).votedFor = some c) :
    ∀ d, (v, x.currentTerm, d) ∈ s.votesCast → d = c := by
  intro d hd
  have heq := hle.antisymm (h.cast_le v _ d hd)
  rw [← heq] at hd
  have hnow := h.cast_now v d hd
  rcases hfree heq with hnone | hsome
  · rw [hnone] at hnow
    cases hnow
  · rw [hsome] at hnow
    exact (some.inj hnow).symm

/-- Node `v` grants its vote to `c` and becomes `x`. -/
theorem ElectionInv.granted (h : ElectionInv s) (hle : (s.node v).currentTerm ≤ x.currentTerm)
    (hvoted : x.votedFor = some c) (hfree : (s.node v).currentTerm = x.currentTerm →
      (s.node v).votedFor = none ∨ (s.node v).votedFor = some c) (hstate : x.state ≠ .leader ∨
      (x.state = (s.node v).state ∧ x.currentTerm = (s.node v).currentTerm))
    (hopen : x.state = .candidate → (x.currentTerm, v) ∉ s.elections)
    (hnode : s'.node = update s.node v x)
    (hcast : s'.votesCast = (v, x.currentTerm, c) :: s.votesCast)
    (hvotes : ∀ (i : Nat) d, s'.votes[i]? = some d → d.pre = false → CallInv s' d)
    (hballots : ∀ n b, s'.timer n = .election b → BallotInv s' n b)
    (helect : s'.elections = s.elections) : ElectionInv s' := by
  have honly := h.grant_only hle hfree
  have hv : s'.node v = x := by rw [hnode, update_self]
  have hother : ∀ w, w ≠ v → s'.node w = s.node w := by
    intro w hw
    rw [hnode, update_of_ne hw]
  refine ⟨?_, ?_, ?_, ?_, hvotes, hballots, ?_, ?_, ?_, ?_⟩
  · intro w T d hm
    rw [hcast] at hm
    rcases mem_cons.1 hm with heq | hold
    · obtain ⟨rfl, rfl, rfl⟩ := heq
      rw [hv]
    · by_cases hw : w = v
      · subst hw
        rw [hv]
        exact (h.cast_le w T d hold).trans hle
      · rw [hother w hw]
        exact h.cast_le w T d hold
  · intro w d hm
    rw [hcast] at hm
    by_cases hw : w = v
    · subst hw
      rw [hv] at hm ⊢
      rcases mem_cons.1 hm with heq | hm
      · rw [hvoted, (Prod.mk.inj (Prod.mk.inj heq).2).2]
      · rw [hvoted, honly d hm]
    · rw [hother w hw] at hm ⊢
      rcases mem_cons.1 hm with heq | hm
      · exact absurd (Prod.mk.inj heq).1 hw
      · exact h.cast_now w d hm
  · intro w T d e hd he
    rw [hcast] at hd he
    rcases mem_cons.1 hd with heq | hd <;> rcases mem_cons.1 he with heq' | he
    · obtain ⟨_, _, rfl⟩ := heq
      obtain ⟨_, _, rfl⟩ := heq'
      rfl
    · obtain ⟨rfl, rfl, rfl⟩ := heq
      exact (honly e he).symm
    · obtain ⟨rfl, rfl, rfl⟩ := heq'
      exact honly d hd
    · exact h.cast_fun w T d e hd he
  · intro w d hd
    rw [hcast]
    by_cases hw : w = v
    · subst hw
      rw [hv] at hd ⊢
      rw [hvoted] at hd
      cases hd
      exact mem_cons_self
    · rw [hother w hw] at hd ⊢
      exact mem_cons_of_mem _ (h.voted w d hd)
  · intro n hl
    rw [helect]
    by_cases hn : n = v
    · subst hn
      rw [hv] at hl ⊢
      rcases hstate with hne | ⟨hs₁, hs₂⟩
      · exact absurd hl hne
      · rw [hs₂]
        exact h.leads n (hs₁ ▸ hl)
    · rw [hother n hn] at hl ⊢
      exact h.leads n hl
  · intro T n hn
    rw [helect] at hn
    obtain ⟨Q, hQ, hv⟩ := h.won T n hn
    exact ⟨Q, hQ, fun w hw => by rw [hcast]; exact mem_cons_of_mem _ (hv w hw)⟩
  · intro T n hn
    rw [helect] at hn
    by_cases hnv : n = v
    · subst hnv
      rw [hv]
      exact (h.won_le T n hn).trans hle
    · rw [hother n hnv]
      exact h.won_le T n hn
  · intro n hcand
    rw [helect]
    by_cases hnv : n = v
    · subst hnv
      rw [hv] at hcand ⊢
      exact hopen hcand
    · rw [hother n hnv] at hcand ⊢
      exact h.open_ n hcand

theorem ElectionInv.campaign (h : ElectionInv s) (hs : s.campaign cfg n = some s') :
    ElectionInv s' := by
  have hround := ballotInv_campaign hs
  obtain ⟨_, hs'⟩ := campaign_some hs
  have hnode : s'.node = update s.node n (startElection n (s.clock n) (s.node n)) := by
    rw [hs']
  have hcast : s'.votesCast = (n, (s.node n).currentTerm + 1, n) :: s.votesCast := by rw [hs']
  have hvotes : s'.votes = s.votes ++ voteCalls cfg n false
      ((s.node n).voteRequest n ((s.node n).currentTerm + 1)) := by rw [hs']
  have hmono : ∀ t ∈ s.votesCast, t ∈ s'.votesCast := by
    intro t ht
    rw [hcast]
    exact mem_cons_of_mem _ ht
  refine h.granted (Nat.le_succ _) rfl (fun heq => ?_) (.inl ?_) (fun _ hwon => ?_) hnode hcast
    ?_ ?_ (by rw [hs'])
  · exact absurd heq (ne_of_lt (Nat.lt_succ_self _))
  · exact nofun
  · exact absurd (h.won_le _ n hwon) (Nat.not_succ_le_self _)
  · intro i c hc hp
    rw [hvotes] at hc
    rcases getElem?_append_calls hc with hc | ⟨_, p, _, rfl⟩
    · refine (h.calls i c hc hp).mono (fun m => ?_) hmono
      rw [hnode]
      exact (forall_update_iff _ fun m (y : Node N C B) => (s.node m).currentTerm ≤ y.currentTerm).2
        ⟨Nat.le_succ _, fun _ _ => le_rfl⟩ m
    · refine ⟨rfl, ?_, nofun⟩
      rw [hnode]
      exact le_of_eq (by rw [update_self]; rfl)
  · rw [show s'.timer = _ from congrArg _ hs']
    refine rounds_update ?_ fun m hm b hb => (h.ballots m b hb).append hmono hvotes fun _ => hm
    rintro b ⟨⟩
    exact hround

theorem ElectionInv.voteHandle (h : ElectionInv s) (hs : s.voteHandle cfg i = some s') :
    ElectionInv s' := by
  obtain ⟨sender, peer, req, r, hi, rfl⟩ | ⟨sender, peer, req, x, r, hi, hx, hs'⟩ :=
    voteHandle_some hs
  · refine h.recorded rfl rfl rfl ?_ ?_
    · intro j c hc hp
      rcases getElem?_set_phase hi hc with ⟨_, rfl⟩ | ⟨_, hc⟩
      · cases hp
      · exact (h.calls j c hc hp).mono (fun _ => le_refl _) (fun _ ht => ht)
    · intro n b hb
      exact (h.ballots n b hb).setPhase hi nofun (fun _ ht => ht) rfl
  · have hcall := h.calls i _ hi rfl
    have hvotes : s'.votes = s.votes.set i ⟨sender, peer, false, req, .answered r⟩ := by rw [hs']
    have hnode : s'.node = update s.node peer x := by rw [hs']
    have htimer : s'.timer = s.timer := by rw [hs']
    -- whatever was answered, open calls and rounds are as before
    have hrest : (∀ n, (s.node n).currentTerm ≤ (s'.node n).currentTerm) →
        (∀ t ∈ s.votesCast, t ∈ s'.votesCast) →
        (r.voteGranted = true → (peer, req.term, sender) ∈ s'.votesCast) →
        (∀ (j : Nat) c, s'.votes[j]? = some c → c.pre = false → CallInv s' c) ∧
        ∀ n b, s'.timer n = .election b → BallotInv s' n b := by
      intro hmono hcast hgranted
      refine ⟨?_, ?_⟩
      · intro j c hc hp
        rw [hvotes] at hc
        rcases getElem?_set_phase hi hc with ⟨_, rfl⟩ | ⟨_, hc⟩
        · refine ⟨hcall.candidate, le_trans hcall.term_le (hmono sender), ?_⟩
          intro r' hr' hg
          obtain rfl := Phase.answered.inj hr'
          exact hgranted hg
        · exact (h.calls j c hc hp).mono hmono hcast
      · intro n b hb
        rw [htimer] at hb
        exact (h.ballots n b hb).setPhase hi nofun hcast hvotes
    obtain ⟨hno, hd⟩ | ⟨hyes, hterm, hle, hvoted, hfree, hstate⟩ :=
      handleRequestVote_spec _ _ _ hx
    · -- refused: a drift, and a call that has been answered
      have hq : Quiet s (s.setNode peer x) := ⟨rfl, rfl, rfl, rfl, drift_setNode hd⟩
      have hcast : s'.votesCast = s.votesCast := by rw [hs', hno]; rfl
      obtain ⟨hcalls, hballots⟩ := hrest (fun n => by rw [hnode]; exact (hq.node n).term_le)
        (fun t ht => by rw [hcast]; exact ht) (fun hg => by rw [hno] at hg; cases hg)
      exact (h.quiet hq).recorded hnode hcast (by rw [hs']; rfl) hcalls hballots
    · have hcast : s'.votesCast = (peer, x.currentTerm, req.candidateId) :: s.votesCast := by
        rw [hs', hyes]
        rfl
      have hmono : ∀ n, (s.node n).currentTerm ≤ (s'.node n).currentTerm := by
        rw [hnode]
        exact (forall_update_iff _ fun m (y : Node N C B) =>
          (s.node m).currentTerm ≤ y.currentTerm).2
          ⟨hle, fun _ _ => le_rfl⟩
      have hcand : req.candidateId = sender := hcall.candidate
      obtain ⟨hcalls, hballots⟩ := hrest hmono
        (fun t ht => by rw [hcast]; exact mem_cons_of_mem _ ht)
        (fun _ => by rw [hcast, hterm, hcand]; exact mem_cons_self)
      refine h.granted hle hvoted hfree (hstate.imp_left fun hf => ?_) (fun hc => ?_) hnode hcast
        hcalls hballots (by rw [hs'])
      · rw [hf]
        exact nofun
      · rcases hstate with hf | ⟨hs₁, hs₂⟩
        · rw [hf] at hc
          cases hc
        · rw [hs₂]
          exact h.open_ peer (hs₁ ▸ hc)

/-! ## Counting -/

theorem ElectionInv.collect (h : ElectionInv s) (hs : s.collect cfg n takeResult = some s') :
    ElectionInv s' := by
  obtain ⟨_, _, _, rfl⟩ | ⟨b, b', hb, hb', rfl⟩ := collect_some hs
  · exact h.setTimer nofun
  · refine h.timers rfl rfl rfl rfl (rounds_update ?_ fun m _ d hd =>
      (h.ballots m d hd).mono (fun _ ht => ht) rfl)
    rintro d ⟨⟩
    exact ((h.ballots n b hb).collect hb').mono (fun _ ht => ht) rfl

theorem ElectionInv.voteReply (h : ElectionInv s) (hs : s.voteReply i = some s') :
    ElectionInv s' := by
  obtain ⟨sender, peer, req, r, granted, hi, rfl⟩ |
    ⟨sender, peer, req, r, granted, hi, hgr, hs'⟩ := voteReply_some hs
  · -- a pre-vote response only reaches rounds of pre-votes
    refine h.recorded rfl rfl rfl ?_ ?_
    · intro j c hc hp
      rcases getElem?_set_phase hi hc with ⟨_, rfl⟩ | ⟨_, hc⟩
      · cases hp
      · exact (h.calls j c hc hp).mono (fun _ => le_refl _) (fun _ ht => ht)
    · intro n b hb
      have hb' : s.timer n = .election b := by
        by_cases hn : n = sender
        · subst hn
          simp only [update_self, Timer.push] at hb
          split at hb
          · split_ifs at hb
            exact hb
          · rename_i hpre
            cases hpre
          · exact hb
        · simpa [hn] using hb
      exact (h.ballots n b hb').setPhase hi nofun (fun _ ht => ht) rfl
  · have hcall := h.calls i _ hi rfl
    have hvotes : s'.votes = s.votes.set i ⟨sender, peer, false, req, .finished⟩ := by rw [hs']
    have hcast : s'.votesCast = s.votesCast := by rw [hs']
    have hd : ∀ n, Drift (s.node n) (s'.node n) := by
      rw [hs']
      exact drift_setNode (drift_observeTerm _ _)
    have hself : s'.timer sender = (s.timer sender).push false i (peer, granted) := by
      rw [hs']
      exact update_self ..
    have hother : ∀ n, n ≠ sender → s'.timer n = s.timer n := by
      intro n hn
      rw [hs']
      exact update_of_ne hn ..
    have h' : ElectionInv { s with node := s'.node } := h.quiet ⟨rfl, rfl, rfl, rfl, hd⟩
    refine h'.recorded rfl hcast (by rw [hs']) ?_ ?_
    · intro j c hc hp
      rw [hvotes] at hc
      rcases getElem?_set_phase hi hc with ⟨_, rfl⟩ | ⟨_, hc⟩
      · exact ⟨hcall.candidate, le_trans hcall.term_le (hd sender).term_le,
          nofun⟩
      · exact (h.calls j c hc hp).mono (fun n => (hd n).term_le)
          (fun _ ht => by rw [hcast]; exact ht)
    · intro n b hb
      have hplain : s.timer n = .election b → BallotInv s' n b := fun hb' =>
        (h.ballots n b hb').setPhase hi nofun
          (fun _ ht => by rw [hcast]; exact ht) hvotes
      by_cases hn : n = sender
      · subst hn
        rw [hself] at hb
        cases ht : s.timer n with
        | election b₀ =>
          simp only [ht, Timer.push] at hb
          split_ifs at hb with hfirst
          · obtain rfl := Timer.election.inj hb
            exact (h.ballots n b₀ ht).push hi hfirst
              (fun hg => hcall.granted r rfl (hgr hg)) hcast hvotes
          · exact hplain (ht.trans hb)
        | _ =>
          simp only [ht, Timer.push] at hb
          cases hb
      · rw [hother n hn] at hb
        exact hplain hb

/-! ## Winning -/

theorem card_eq_peers (cfg : Config N) (n : N) : Fintype.card N = (cfg.peers n).length + 1 := by
  have huniv : (Finset.univ : Finset N) = insert n (cfg.peers n).toFinset := by
    ext m
    by_cases hm : m = n <;> simp [hm, cfg.mem_peers]
  have hnot : n ∉ (cfg.peers n).toFinset := by simp [cfg.mem_peers]
  rw [← Finset.card_univ, huniv, Finset.card_insert_of_notMem hnot,
    toFinset_card_of_nodup (cfg.peers_nodup n)]

/-- Enough grants are a majority of recorded votes. -/
theorem BallotInv.majority (h : BallotInv s n b) (hn : cfg.needed n ≤ b.grants.length + 1) :
    ∃ Q, Majority Q ∧ ∀ v ∈ Q, (v, b.term, n) ∈ s.votesCast := by
  obtain ⟨hown, hgrants, _, hnodup, hself, _, _⟩ := h
  have hnd : (n :: b.grants).Nodup := by
    refine nodup_cons.2 ⟨fun hmem => hself ?_, ?_⟩
    · exact mem_append_left _ hmem
    · exact hnodup.sublist (sublist_append_left _ _)
  refine ⟨(n :: b.grants).toFinset, majority_of_nodup hnd ?_, ?_⟩
  · rw [card_eq_peers cfg n, length_cons]
    unfold Config.needed at hn
    omega
  · intro v hv
    rcases mem_cons.1 (mem_toFinset.1 hv) with rfl | hv
    · exact hown
    · exact hgrants v hv

theorem ElectionInv.finishBallot (h : ElectionInv s) (hs : s.finishBallot cfg n = some s') :
    ElectionInv s' := by
  obtain rfl | rfl | ⟨b, hb, hn, _, hterm, rfl⟩ := finishBallot_some hs
  · exact h.setTimer nofun
  · exact h.setTimer nofun
  · have hx : ∀ m, (update s.node n (becomeLeader cfg n (s.node n)) m).currentTerm =
        (s.node m).currentTerm ∧
        (update s.node n (becomeLeader cfg n (s.node n)) m).votedFor =
        (s.node m).votedFor := by
      intro m
      by_cases hm : m = n
      · subst hm
        simp [becomeLeader]
      · simp [hm]
    refine ⟨?_, ?_, h.cast_fun, ?_, ?_, ?_, ?_, ?_, ?_, ?_⟩
    · intro v T c hm
      exact (h.cast_le v T c hm).trans (le_of_eq (hx v).1.symm)
    · intro v c hm
      exact (hx v).2.trans (h.cast_now v c ((hx v).1 ▸ hm))
    · intro v c hv
      simp only [(hx v).1]
      exact h.voted v c ((hx v).2 ▸ hv)
    · intro i c hc hp
      exact (h.calls i c hc hp).mono (fun m => le_of_eq (hx m).1.symm) (fun _ ht => ht)
    · exact rounds_update nofun fun m _ d hd => (h.ballots m d hd).mono (fun _ ht => ht) rfl
    · intro m hl
      by_cases hm : m = n
      · subst hm
        simp only [(hx m).1, hterm]
        exact mem_cons_self
      · simp only [update_of_ne hm] at hl ⊢
        exact mem_cons_of_mem _ (h.leads m hl)
    · intro T m hm
      rcases mem_cons.1 hm with heq | hm
      · obtain ⟨rfl, rfl⟩ := Prod.mk.inj heq
        exact (h.ballots m b hb).majority hn
      · exact h.won T m hm
    · intro T m hm
      simp only [(hx m).1]
      rcases mem_cons.1 hm with heq | hm
      · cases heq
        exact hterm.symm.le
      · exact h.won_le T m hm
    · intro m hcand hwon
      by_cases hm : m = n
      · subst hm
        simp [becomeLeader] at hcand
      · simp only [update_of_ne hm] at hcand hwon
        rcases mem_cons.1 hwon with heq | hwon
        · exact hm (Prod.mk.inj heq).2
        · exact h.open_ m hcand hwon

/-! ## Every run -/

theorem ElectionInv.step (h : ElectionInv s) (hs : step cfg cb s a = some s') :
    ElectionInv s' := by
  cases ha : a.electoral with
  | false => exact h.quiet (quiet_step ha hs)
  | true =>
    cases a with
    | timerExpire n jitter =>
      obtain ⟨_, rfl⟩ := timerExpire_some hs
      exact h.setTimer nofun
    | startPreVote n => exact h.startPreVote hs
    | campaign n => exact h.campaign hs
    | voteHandle i => exact h.voteHandle hs
    | voteReply i => exact h.voteReply hs
    | collect n takeResult => exact h.collect hs
    | finishBallot n => exact h.finishBallot hs
    | _ => cases ha

theorem electionInv_reach (h : Reach (step cfg cb) ok (Cluster.init cb) s) : ElectionInv s :=
  h.invariant (electionInv_init cb) fun _ _ _ hi _ hs => hi.step hs

/-- **Election safety.**  In every run, whatever is lost, delayed or reordered and whatever the
disks do, two nodes that are ever leader of the same term are the same node. -/
theorem election_safety {s t : Cluster N C B S}
    (hs : Reach (step cfg cb) anyAction (Cluster.init cb) s)
    (ht : Reach (step cfg cb) anyAction s t) {n m : N} (hn : (s.node n).state = .leader)
    (hm : (t.node m).state = .leader) (hterm : (s.node n).currentTerm = (t.node m).currentTerm) :
    n = m := by
  have hinv := electionInv_reach (hs.trans ht)
  have hwon := elections_reach ht ((electionInv_reach hs).leads n hn)
  rw [hterm] at hwon
  exact hinv.unique hwon (hinv.leads m hm)

/-- Three nodes, node `0` elected by itself and node `1`: it stays the only leader of its term. -/
theorem election_safety_threeNodes :
    ∃ s : Cluster (Fin 3) Nat Nat Unit,
      Reach (step (.complete 3 1) .stateless) anyAction (Cluster.init .stateless) s ∧
      (s.node 0).state = .leader ∧ (s.node 0).currentTerm = 1 ∧
      ∀ t, Reach (step (.complete 3 1) .stateless) anyAction s t → ∀ m, (t.node m).state = .leader →
        (t.node m).currentTerm = 1 → m = 0 := by
  have hrun : (execute (step (.complete 3 1) .stateless) (fun _ _ => true)
      (Cluster.init .stateless : Cluster (Fin 3) Nat Nat Unit)
      (electionSchedule [0, 1, 2] 1 0 [0] [2])).map
      (fun s => ((s.node 0).state, (s.node 0).currentTerm)) = some (.leader, 1) := by
    decide +kernel
  obtain ⟨s, hs, hobs⟩ := reach_observe_any hrun
  obtain ⟨hstate, hterm⟩ := Prod.mk.inj hobs
  refine ⟨s, hs, hstate, hterm, fun t ht m hm hmt => ?_⟩
  exact (election_safety hs ht hstate hm (hterm.trans hmt.symm)).symm

end MxKeys.Raft
