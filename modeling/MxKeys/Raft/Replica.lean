/-
# MxKeys.Raft.Replica — a node of the code is a replica of the abstract protocol.

`NodeSim g n x` says that node `n`, in state `x`, is replica `n` of the history `g`: same term, same
role, same vote, the in-memory log is what is left of the replica's full log after compaction, and
the commit index, the `matchIndex` of a leader and the snapshot on disk are facts about the history
of the kinds that no event takes back.

The theorems of this module take the sections of the code that elections are made of and say which
events of the protocol they are; `Moves g g' n` is an event, or several, at replica `n`.
-/
import MxKeys.Consensus.Evolve
import MxKeys.Raft.LogView

namespace MxKeys.Raft

open MxKeys.Lib MxKeys.Consensus
open List

variable {N C B : Type*}

instance : Termed (LogEntry C) := ⟨LogEntry.term⟩

theorem termed_term (e : LogEntry C) : Termed.term e = e.term := rfl

/-- The role of the protocol. -/
def State.role : State → Role
  | .follower => .follower
  | .candidate => .candidate
  | .leader => .leader

variable [Fintype N] [DecidableEq N]

/-- A history of the protocol whose logs are numbered from `1`. -/
structure Sound (g : History N (LogEntry C)) : Prop where
  inv : Inv g
  own : SelfAcked g
  numbered : ∀ T k e, (g.hist T)[k]? = some e → e.index = k + 1

/-- Node `n` in state `x` is replica `n` of `g`. -/
structure NodeSim (cfg : Config N) (g : History N (LogEntry C)) (n : N) (x : Node N C B) :
    Prop where
  term : g.termOf n = x.currentTerm
  role : g.role n = x.state.role
  base : g.base n = x.logOffset
  log : x.log = (g.full n).drop x.logOffset
  boundary : x.snapshotIndex = x.logOffset
  snapTerm : x.snapshotTerm = lastTerm ((g.full n).take x.logOffset)
  voted : x.votedFor = g.vote n x.currentTerm
  commit : Known g n x.commitIndex
  matched : x.state = .leader → ∀ p ∈ cfg.peers n, Matched g p x.currentTerm (x.matchIndex p)
  file : ∀ snap, x.snapshotFile = some snap →
    Boundary g x.currentTerm snap.lastIncludedIndex snap.lastIncludedTerm

/-- Events at replica `n` lead from `g` to `g'`. -/
structure Moves (g g' : History N (LogEntry C)) (n : N) : Prop where
  ev : Evolves g g'
  sound : Sound g'
  others : ∀ m, m ≠ n → Same g g' m

variable {cfg : Config N} {g g' g'' : History N (LogEntry C)} {n : N} {x : Node N C B}

theorem Moves.refl (h : Sound g) (n : N) : Moves g g n :=
  ⟨.refl g, h, fun m _ => .refl g m⟩

theorem Moves.trans (h : Moves g g' n) (h' : Moves g' g'' n) : Moves g g'' n :=
  ⟨h.ev.trans h'.ev, h'.sound, fun m hm => (h.others m hm).trans (h'.others m hm)⟩

/-! ## The log of a node -/

theorem Sound.full_wf (h : Sound g) {k : Nat} {e : LogEntry C} (he : (g.full n)[k]? = some e) :
    e.index = k + 1 ∧ 1 ≤ e.term := by
  rcases lt_or_ge k (g.base n) with hlt | hge
  · obtain ⟨T, j, _, _, hT⟩ := (h.inv.replica n).base_known.committedAt hlt he
    exact ⟨h.numbered T k e hT, (h.inv.hist_wf T k e (Nat.zero_le _) hT).1⟩
  · obtain ⟨h1, _, _, hag⟩ := (h.inv.replica n).log_wf k e hge he
    exact ⟨h.numbered _ k e (by rw [← hag k hge le_rfl]; exact he), h1⟩

namespace NodeSim

theorem offset_le (hx : NodeSim cfg g n x) (h : Sound g) : x.logOffset ≤ (g.full n).length := by
  rw [← hx.base]
  exact h.inv.known_le_length (h.inv.replica n).base_known

theorem logLen_eq (hx : NodeSim cfg g n x) (h : Sound g) : x.logLen = (g.full n).length := by
  have := hx.offset_le h
  rw [Node.logLen, hx.log, length_drop]
  omega

omit [Fintype N] [DecidableEq N] in
theorem log_getElem? (hx : NodeSim cfg g n x) (k : Nat) :
    x.log[k]? = (g.full n)[x.logOffset + k]? := by
  rw [hx.log, getElem?_drop]

theorem indexed (hx : NodeSim cfg g n x) (h : Sound g) : x.Indexed := by
  intro k e he
  rw [hx.log_getElem?] at he
  exact (h.full_wf he).1

variable {i t b : Nat} {x' : Node N C B} {R : List (LogEntry C)}

section Sim

variable (hx : NodeSim cfg g n x)
include hx

omit [Fintype N] [DecidableEq N] in
theorem entryAt_eq (hi : x.logOffset < i) : x.entryAt i = (g.full n)[i - 1]? := by
  rw [entryAt_of_lt hi, hx.log_getElem?]
  congr 1
  omega

omit [Fintype N] [DecidableEq N] in
theorem entryAt_full {e : LogEntry C} (he : x.entryAt i = some e) :
    x.logOffset < i ∧ (g.full n)[i - 1]? = some e := by
  obtain ⟨hlt, _, _⟩ := entryAt_some he
  rw [hx.entryAt_eq hlt] at he
  exact ⟨hlt, he⟩

/-- The term that `termAt` finds, at the boundary or in the window, is that of the full log. -/
theorem termAt_full (h : Sound g) (hi : 0 < i) (ht : x.termAt i = some t) :
    x.logOffset ≤ i ∧ ∃ e, (g.full n)[i - 1]? = some e ∧ e.term = t := by
  rcases termAt_some hi ht with ⟨hs, rfl⟩ | ⟨e, he, rfl⟩
  · rw [hx.boundary] at hs
    have hle := hx.offset_le h
    obtain ⟨e, he⟩ := exists_getElem? (l := g.full n) (k := i - 1) (by omega)
    refine ⟨by omega, e, he, ?_⟩
    have hlast : lastTerm ((g.full n).take i) = Termed.term e := by
      refine lastTerm_eq ?_
      rw [length_take_of_le (by omega), getElem?_take_of_lt (by omega)]
      exact he
    rw [hx.snapTerm, ← hs, hlast]
    rfl
  · obtain ⟨hlt, he'⟩ := hx.entryAt_full he
    exact ⟨le_of_lt hlt, e, he', rfl⟩

theorem lastLogIndexTerm_eq (h : Sound g) :
    x.lastLogIndexTerm = ((g.full n).length, lastTerm (g.full n)) := by
  have hlen := hx.logLen_eq h
  unfold Node.logLen at hlen
  unfold Node.lastLogIndexTerm
  cases hl : x.log.getLast? with
  | none =>
    rw [getLast?_eq_none_iff.1 hl, length_nil, Nat.add_zero] at hlen
    rw [hx.boundary, hx.snapTerm, take_of_length_le (by omega), hlen]
  | some e =>
    rw [getLast?_eq_getElem?, hx.log_getElem?] at hl
    have hlast : (g.full n)[(g.full n).length - 1]? = some e := by
      rw [← hl]
      have hpos := lt_length_of_getElem? hl
      have : x.log ≠ [] := by
        rintro hnil
        rw [hnil] at hl hlen
        simp only [length_nil] at hl hlen
        omega
      have := length_pos_iff.2 this
      congr 1
      omega
    have hpos := lt_length_of_getElem? hlast
    show (e.index, e.term) = _
    rw [lastTerm_eq hlast, (h.full_wf hlast).1, Nat.sub_add_cancel (by omega)]
    rfl

theorem leads (h : Sound g) (hl : x.state = .leader) :
    g.leader x.currentTerm = some n ∧ g.full n = g.hist x.currentTerm := by
  have := (h.inv.replica n).leads (by rw [hx.role, hl]; rfl)
  rwa [hx.term] at this

omit [Fintype N] [DecidableEq N] in
/-- A node that an event elsewhere leaves alone stays the replica it was. -/
theorem evolve (ev : Evolves g g') (hs : Same g g' n) : NodeSim cfg g' n x where
  term := hs.termOf.trans hx.term
  role := hs.role.trans hx.role
  base := hs.base.trans hx.base
  log := by rw [hs.full]; exact hx.log
  boundary := hx.boundary
  snapTerm := by rw [hs.full]; exact hx.snapTerm
  voted := by rw [hs.vote]; exact hx.voted
  commit := ev.known hx.commit
  matched := fun hl p hp => ev.matched (hx.matched hl p hp)
  file := fun snap hsnap => ev.boundary (hx.file snap hsnap)

/-! ## Terms -/

/-- The node takes over a term `≥` its own and follows. -/
theorem lower (h : Sound g) {T : Nat} (hT : x.currentTerm ≤ T)
    (hterm : x'.currentTerm = T) (hstate : x'.state = .follower)
    (hvoted : x'.votedFor = if x.currentTerm < T then none else x.votedFor)
    (hlog : x'.logPart = x.logPart) (hcommit : x'.commitIndex = x.commitIndex)
    (hfile : x'.snapshotFile = x.snapshotFile) :
    Moves g (g.lower n T) n ∧ NodeSim cfg (g.lower n T) n x' := by
  have hT' : g.termOf n ≤ T := by rw [hx.term]; exact hT
  have ev := evolves_lower h.inv hT'
  simp only [Node.logPart, Prod.mk.injEq] at hlog
  obtain ⟨hl, ho, hsi, hst⟩ := hlog
  refine ⟨⟨ev, ⟨h.inv.lower hT', h.own, h.numbered⟩, fun m hm => same_lower hm T⟩, ?_⟩
  refine ⟨?_, ?_, ?_, ?_, ?_, ?_, ?_, ?_, ?_, ?_⟩
  · simp [History.lower, hterm]
  · simp [History.lower, hstate, State.role]
  · rw [ho]; exact hx.base
  · rw [hl, ho]; exact hx.log
  · rw [hsi, ho]; exact hx.boundary
  · rw [hst, ho]; exact hx.snapTerm
  · rw [hvoted, hterm]
    split_ifs with hlt
    · exact (h.inv.vote_none (hx.term ▸ hlt)).symm
    · rw [← le_antisymm hT (by omega)]
      exact hx.voted
  · rw [hcommit]; exact ev.known hx.commit
  · intro hl
    rw [hstate] at hl
    cases hl
  · intro snap hsnap
    rw [hfile] at hsnap
    rw [hterm]
    exact (ev.boundary (hx.file snap hsnap)).mono hT

theorem observeTerm (h : Sound g) (t : Nat) :
    ∃ g', Moves g g' n ∧ NodeSim cfg g' n (x.observeTerm t) := by
  unfold Node.observeTerm
  split_ifs with hlt
  · exact ⟨_, hx.lower h hlt.le rfl rfl (by rw [if_pos hlt]) rfl rfl rfl⟩
  · exact ⟨g, .refl h n, hx⟩

theorem hearLeader (h : Sound g) (ht : x.currentTerm ≤ t) (now : Nat)
    (leader : N) (address : Option N) : Moves g (g.lower n t) n ∧
      NodeSim cfg (g.lower n t) n (x.hearLeader now t leader address) := by
  refine hx.lower h ht ?_ rfl rfl rfl rfl rfl
  unfold Node.hearLeader
  dsimp only
  split_ifs <;> omega

/-! ## Elections -/

/-- `startElection` is a campaign, with the log that its vote requests describe. -/
theorem startElection (h : Sound g) (now : Nat) :
    Moves g (g.campaign n) n ∧ NodeSim cfg (g.campaign n) n (startElection n now x) := by
  have ev := evolves_campaign h.inv n
  refine ⟨⟨ev, ⟨h.inv.campaign n, h.own, h.numbered⟩, fun m hm => same_campaign hm⟩, ?_⟩
  refine ⟨?_, ?_, hx.base, hx.log, hx.boundary, hx.snapTerm, ?_, ev.known hx.commit, ?_, ?_⟩
  · simp [History.campaign, Raft.startElection, hx.term]
  · simp [History.campaign, Raft.startElection, State.role]
  · show some n = (g.campaign n).vote n (x.currentTerm + 1)
    rw [← hx.term]
    exact (set2_same _ _ _ _).symm
  · rintro ⟨⟩
  · intro snap hsnap
    exact (ev.boundary (hx.file snap hsnap)).mono (Nat.le_succ _)

/-- The election restriction of the code is the one of the protocol. -/
theorem upToDate (h : Sound g)
    (hup : x.isLogUpToDate R.length (lastTerm R) = true) : UpToDate R (g.full n) := by
  unfold Node.isLogUpToDate at hup
  rw [hx.lastLogIndexTerm_eq h] at hup
  dsimp only at hup
  split_ifs at hup with hne
  · exact .inl (of_decide_eq_true hup)
  · exact .inr ⟨not_not.1 hne, of_decide_eq_true hup⟩

/-- A vote is cast in the node's current term and recorded, or it was cast before. -/
theorem grant (h : Sound g) {c : N}
    (hcamp : g.camp c x.currentTerm = some (R, b)) (hfree : x.votedFor = none ∨ x.votedFor = some c)
    (hup : UpToDate R (g.full n)) (now : Nat) : ∃ g', Moves g g' n ∧
      NodeSim cfg g' n { x with votedFor := some c, lastContact := now } ∧
      g'.vote n x.currentTerm = some c := by
  have hv := hx.voted
  rcases hfree with hnone | hsome
  · rw [hnone, ← hx.term] at hv
    have ev := evolves_grant h.inv c hv.symm
    have hcamp' : g.camp c (g.termOf n) = some (R, b) := by rw [hx.term]; exact hcamp
    have hvote : (g.grant n c).vote n x.currentTerm = some c := by
      rw [← hx.term]
      exact set2_same _ _ _ _
    refine ⟨g.grant n c, ⟨ev, ⟨h.inv.grant hv.symm hcamp' hup, h.own, h.numbered⟩,
      fun m hm => same_grant hm c⟩, ?_, hvote⟩
    exact ⟨hx.term, hx.role, hx.base, hx.log, hx.boundary, hx.snapTerm, hvote.symm,
      ev.known hx.commit, fun hl p hp => ev.matched (hx.matched hl p hp),
      fun snap hsnap => ev.boundary (hx.file snap hsnap)⟩
  · rw [hsome] at hv
    exact ⟨g, .refl h n, ⟨hx.term, hx.role, hx.base, hx.log, hx.boundary, hx.snapTerm, hv,
      hx.commit, hx.matched, hx.file⟩, hv.symm⟩

/-- `handleRequestVote` for a request that describes a campaign of its term. -/
theorem handleRequestVote (h : Sound g) {req : RequestVoteRequest N}
    {now : Nat} (hcamp : g.camp req.candidateId req.term = some (R, b))
    (hindex : req.lastLogIndex = R.length) (hterm : req.lastLogTerm = lastTerm R)
    {r : RequestVoteResponse} (hr : handleRequestVote now x req = (x', r)) :
    ∃ g', Moves g g' n ∧ NodeSim cfg g' n x' ∧
      (r.voteGranted = true → g'.vote n x'.currentTerm = some req.candidateId) := by
  unfold Raft.handleRequestVote at hr
  split_ifs at hr with hlt
  · cases hr
    exact ⟨g, .refl h n, hx, nofun⟩
  · obtain ⟨g₁, hm₁, hx₁⟩ := hx.observeTerm h req.term
    have ht : (x.observeTerm req.term).currentTerm = req.term := by
      unfold Node.observeTerm
      split_ifs
      · rfl
      · omega
    dsimp only at hr
    split_ifs at hr with hok
    · cases hr
      rw [hindex, hterm] at hok
      obtain ⟨g₂, hm₂, hx₂, hvote⟩ := hx₁.grant hm₁.sound
        (ht ▸ hm₁.ev.camp _ _ _ hcamp) hok.1 (hx₁.upToDate hm₁.sound hok.2) now
      exact ⟨g₂, hm₁.trans hm₂, hx₂, fun _ => hvote⟩
    · cases hr
      exact ⟨g₁, hm₁, hx₁, nofun⟩

/-- `becomeLeader`, with the votes of a majority. -/
theorem becomeLeader (h : Sound g) (hcand : x.state = .candidate)
    {Q : Finset N} (hQ : Majority Q) (hvotes : ∀ v ∈ Q, g.vote v x.currentTerm = some n) :
    Moves g (g.elect n) n ∧ NodeSim cfg (g.elect n) n (becomeLeader cfg n x) := by
  have hrole : g.role n = .candidate := by rw [hx.role, hcand]; rfl
  rw [← hx.term] at hvotes
  have ev := evolves_elect h.inv hrole hQ hvotes
  have hfresh := h.inv.elect_fresh hrole hQ hvotes
  refine ⟨⟨ev, ⟨h.inv.elect hrole hQ hvotes, h.own.elect h.inv hfresh, ?_⟩,
    fun m hm => same_elect hm⟩, ?_⟩
  · intro T k e he
    by_cases hT : T = g.termOf n
    · subst hT
      simp only [History.elect, Function.update_self] at he
      exact (h.full_wf he).1
    · simp only [History.elect, Function.update_of_ne hT] at he
      exact h.numbered T k e he
  · refine ⟨hx.term, ?_, hx.base, hx.log, hx.boundary, hx.snapTerm, hx.voted, ev.known hx.commit,
      ?_, fun snap hsnap => ev.boundary (hx.file snap hsnap)⟩
    · simp [History.elect, Raft.becomeLeader, State.role]
    · intro _ p hp
      have hzero : (Raft.becomeLeader cfg n x).matchIndex p = 0 := by
        simp [Raft.becomeLeader, hp]
      rw [hzero]
      exact .zero _ _ _

end Sim

end NodeSim

end MxKeys.Raft
