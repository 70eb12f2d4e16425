/-
# MxKeys.Raft.Acknowledge — what a nil from `Submit` or `Propose` is worth.

`replicateEntry` waits until the commit index reaches the entry's index and does not look at what is
stored there.  If another leader has filled the index meanwhile, `Submit` returns nil for a command
that no node applies: `acknowledged_lost` is a run of three nodes in which it happens.

`acknowledged_applied` says when a nil can be trusted: if at the return the node still leads the
entry's term, or still has an entry of that term at the index, then every node that ever applies the
index applies that entry.  A forwarded `Propose` is worth as much as the `Submit` that answers it.
-/
import MxKeys.Raft.Safety

namespace MxKeys.Raft

open MxKeys.Lib MxKeys.Consensus
open List Option

variable {N C B S : Type*} [Fintype N] [DecidableEq N] {cfg : Config N} {cb : Callbacks C B S}
  {s s' : Cluster N C B S} {a : Action N C} {g : History N (LogEntry C)}

/-- When `Submit` returns nil, its node leads the entry's term or has an entry of that term at the
index. -/
def ReturnsOwn (s : Cluster N C B S) : Action N C → Prop
  | .submitReturn k => ∀ c, s.submits[k]? = some c →
      ((s.node c.self).state = .leader ∧ (s.node c.self).currentTerm = c.entry.term) ∨
        (s.node c.self).termAt c.entry.index = some c.entry.term
  | _ => True

/-- `Steady`, and returns are `ReturnsOwn`. -/
def Vouched (s : Cluster N C B S) (a : Action N C) : Prop := Steady s a ∧ ReturnsOwn s a

/-! ## Acknowledged entries are committed -/

/-- The entry that `c` acknowledged is committed. -/
def AckSim (g : History N (LogEntry C)) (s : Cluster N C B S) : Prop :=
  ∀ c ∈ s.submits, c.phase = .acked → CommittedEntry g c.entry

/-- **A return that is `ReturnsOwn` returns for a committed entry.** -/
theorem Sim.returns_committed (h : Sim cfg g s) {c : SubmitCall N C} (hc : c ∈ s.submits)
    (hi : c.entry.index ≤ (s.node c.self).commitIndex)
    (hown : ((s.node c.self).state = .leader ∧ (s.node c.self).currentTerm = c.entry.term) ∨
      (s.node c.self).termAt c.entry.index = some c.entry.term) : CommittedEntry g c.entry := by
  have hsub := h.items.submits c hc
  have hx := h.node c.self
  have hpos := hsub.index
  refine ⟨hpos, ?_⟩
  -- in both cases the node has the entry at its index
  have hslot : (g.full c.self)[c.entry.index - 1]? = some c.entry := by
    rcases hown with ⟨hl, hterm⟩ | hterm
    · rw [(hx.leads h.sound hl).2, hterm]
      exact hsub.slot
    · obtain ⟨_, e, he, het⟩ := hx.termAt_full h.sound hpos hterm
      obtain ⟨T, j, _, _, hT⟩ := KnownAt.committedAt hx.commit (by omega) he
      have hag := h.sound.inv.hist_match hT (c.entry.index - 1) (by omega)
      rw [termed_term, het, hT, hsub.slot] at hag
      rw [he, hag]
  exact KnownAt.committedAt hx.commit (by omega) hslot

omit [Fintype N] in
/-- An acknowledged call was so before, or is just returning. -/
theorem acked_step (h : step cfg cb s a = some s') {c' : SubmitCall N C} (hc' : c' ∈ s'.submits)
    (hp : c'.phase = .acked) : (∃ c ∈ s.submits, c.phase = .acked ∧ c.entry = c'.entry) ∨
      ∃ k c, a = .submitReturn k ∧ s.submits[k]? = some c ∧ c.entry = c'.entry ∧
        c.entry.index ≤ (s.node c.self).commitIndex := by
  rcases submits_step h with hsame | ⟨_, hc, happ⟩ | ⟨hk, hm, hset⟩
  · exact .inl ⟨c', hsame ▸ hc', hp, rfl⟩
  · rw [happ] at hc'
    rcases mem_append.1 hc' with hmem | hmem
    · exact .inl ⟨c', hmem, hp, rfl⟩
    · rw [mem_singleton.1 hmem, hc] at hp
      cases hp
  · rw [hset] at hc'
    rcases mem_or_eq_of_mem_set hc' with hmem | rfl
    · exact .inl ⟨c', hmem, hp, rfl⟩
    · -- only `submitReturn` makes a call an acknowledged one
      obtain rfl : _ = SubmitPhase.acked := hp
      cases hm with
      | acked _ hi => exact .inr ⟨_, _, rfl, hk, rfl, hi⟩

theorem ackSim_reach (h : Reach (step cfg cb) Vouched (Cluster.init cb) s) :
    ∃ g, Sim cfg g s ∧ AckSim g s := by
  have hall : (∃ g, Refines cfg g s ∧ AckSim g s) ∧ Unfailed s := by
    refine h.invariant (P := fun s => (∃ g, Refines cfg g s ∧ AckSim g s) ∧ Unfailed s)
      ⟨⟨_, refines_init cfg cb, nofun⟩, unfailed_init cb⟩ ?_
    rintro t a u ⟨⟨g, hg, hack⟩, hun⟩ ⟨⟨hio, hlead⟩, hret⟩ hu
    obtain ⟨g', ev, hg'⟩ := hg.step hun.keepsEntry hlead hu
    refine ⟨⟨g', hg', fun c' hc' hp => ?_⟩, hun.step hio hu⟩
    obtain ⟨c, hc, hcp, heq⟩ | ⟨k, c, rfl, hk, heq, hi⟩ := acked_step hu hc' hp
    · rw [← heq]
      exact (hack c hc hcp).evolve ev
    · rw [← heq]
      exact (hg.sim.returns_committed (mem_of_getElem? hk) hi (hret c hk)).evolve ev
  obtain ⟨⟨g, hg, hack⟩, _⟩ := hall
  exact ⟨g, hg.sim, hack⟩

/-! ## Forwarded proposals -/

/-- The proposal was answered with success, and has returned or is about to. -/
def ForwardPhase.succeeded : ForwardPhase → Bool
  | .answered ok | .returned ok => ok
  | _ => false

/-- Proposals and the `Submit` calls that work for them. -/
structure ForwardInv (s : Cluster N C B S) : Prop where
  command : ∀ c ∈ s.submits, ∀ i, c.origin = some i →
    ∃ f, s.forwards[i]? = some f ∧ f.command = c.entry.command
  answered : ∀ i f, s.forwards[i]? = some f → f.phase.succeeded = true →
    ∃ c ∈ s.submits, c.origin = some i ∧ c.phase = .acked ∧ c.entry.command = f.command

omit [Fintype N] [DecidableEq N] in
/-- A phase that does not claim more than the one before it. -/
theorem ForwardInv.setForward (h : ForwardInv s) {i : Nat} {phase : ForwardPhase}
    (hp : ∀ f, s.forwards[i]? = some f → phase.succeeded = true →
      ∃ c ∈ s.submits, c.origin = some i ∧ c.phase = .acked ∧ c.entry.command = f.command) :
    ForwardInv (s.setForward i phase) := by
  unfold Cluster.setForward
  cases hi : s.forwards[i]? with
  | none => exact h
  | some f =>
    have hlt := lt_length_of_getElem? hi
    refine ⟨fun c hc j hj => ?_, fun j f' hf' hs => ?_⟩
    · obtain ⟨d, hd, hcmd⟩ := h.command c hc j hj
      by_cases hij : i = j
      · subst hij
        rw [hi] at hd
        cases hd
        exact ⟨{ f with phase := phase }, getElem?_set_self hlt, hcmd⟩
      · exact ⟨d, by simp only [getElem?_set_ne hij]; exact hd, hcmd⟩
    · by_cases hij : i = j
      · subst hij
        simp only [getElem?_set_self hlt] at hf'
        cases hf'
        exact hp f hi hs
      · simp only [getElem?_set_ne hij] at hf'
        exact h.answered j f' hf' hs

omit [Fintype N] in
theorem ForwardInv.submit (h : ForwardInv s) {n : N} {command : C} {origin : Option Nat}
    (ho : ∀ i, origin = some i → ∃ f, s.forwards[i]? = some f ∧ f.command = command)
    (hs : s.submit n command origin = some s') : ForwardInv s' := by
  obtain ⟨_, rfl⟩ := submit_some hs
  refine ⟨fun c hc i hi => ?_, fun i f hf hsucc => ?_⟩
  · rcases mem_append.1 hc with hc | hc
    · exact h.command c hc i hi
    · obtain rfl := mem_singleton.1 hc
      exact ho i hi
  · obtain ⟨c, hc, hrest⟩ := h.answered i f hf hsucc
    exact ⟨c, mem_append_left _ hc, hrest⟩

omit [Fintype N] [DecidableEq N] in
/-- A `Submit` moves on, with the verdict that its new phase stands for. -/
theorem ForwardInv.setSubmit (h : ForwardInv s) {k : Nat} {c : SubmitCall N C}
    (hk : s.submits[k]? = some c) (hc : c.phase ≠ .acked) {phase : SubmitPhase C}
    {verdict : Option Bool} (hv : verdict = some true → phase = .acked) :
    ForwardInv (s.setSubmit k c phase verdict) := by
  have hlt := lt_length_of_getElem? hk
  have hmem : { c with phase := phase } ∈ s.submits.set k { c with phase := phase } :=
    mem_of_getElem? (getElem?_set_self hlt)
  -- the calls alone
  have hcalls : ForwardInv { s with submits := s.submits.set k { c with phase := phase } } := by
    refine ⟨forall_mem_set (b := { c with phase := phase }) h.command
      (h.command c (mem_of_getElem? hk)) k, ?_⟩
    intro i f hf hs
    obtain ⟨d, hd, ho, hda, hcmd⟩ := h.answered i f hf hs
    obtain ⟨j, hj⟩ := getElem?_of_mem hd
    refine ⟨d, mem_of_getElem? (i := j) ?_, ho, hda, hcmd⟩
    rw [getElem?_set_ne]
    · exact hj
    · rintro rfl
      rw [hk] at hj
      cases hj
      exact hc hda
  unfold Cluster.setSubmit
  split
  · rename_i i ok ho
    refine hcalls.setForward fun f hf hs => ?_
    obtain ⟨f', hf', hcmd⟩ := h.command c (mem_of_getElem? hk) i ho
    have hff : f' = f := some.inj (hf'.symm.trans hf)
    obtain rfl : ok = true := hs
    exact ⟨_, hmem, ho, hv rfl, by rw [← hff]; exact hcmd.symm⟩
  · exact hcalls

omit [Fintype N] in
theorem ForwardInv.step (h : ForwardInv s) (hs : step cfg cb s a = some s') : ForwardInv s' := by
  cases ha : a.moves with
  | false =>
    have hsub := (frame_step hs).submits ha
    have hfwd := (frame_step hs).forwards ha
    exact ⟨by rw [hsub, hfwd]; exact h.command, by rw [hsub, hfwd]; exact h.answered⟩
  | true =>
    cases a with
    | submit n command => exact h.submit (fun _ ho => by cases ho) hs
    | propose n command =>
      change s.propose n command = some s' at hs
      unfold Cluster.propose at hs
      split_ifs at hs
      · exact h.submit (fun _ ho => by cases ho) hs
      · split at hs
        · cases hs
          refine ⟨fun c hc i hi => ?_, fun i f hf hsucc => ?_⟩
          · obtain ⟨f, hf, hcmd⟩ := h.command c hc i hi
            exact ⟨f, by simp only [getElem?_append_left (lt_length_of_getElem? hf), hf],
              hcmd⟩
          · rcases lt_or_ge i s.forwards.length with hlt | hge
            · simp only [getElem?_append_left hlt] at hf
              exact h.answered i f hf hsucc
            · simp only [getElem?_append_right hge] at hf
              obtain rfl := mem_singleton.1 (mem_of_getElem? hf)
              cases hsucc
        · cases hs
    | forwardHandle i =>
      change s.forwardHandle i = some s' at hs
      unfold Cluster.forwardHandle at hs
      split at hs
      · rename_i sender leader command hi
        split_ifs at hs
        · have hfwd : ForwardInv (s.setForward i .submitting) :=
            h.setForward nofun
          refine hfwd.submit ?_ hs
          rintro j ⟨⟩
          refine ⟨⟨sender, leader, command, .submitting⟩, ?_, rfl⟩
          simp only [Cluster.setForward, hi]
          exact getElem?_set_self (lt_length_of_getElem? hi)
        · cases hs
          exact h.setForward nofun
      · cases hs
    | forwardReply i =>
      change s.forwardReply i = some s' at hs
      unfold Cluster.forwardReply at hs
      split at hs
      · rename_i hi
        cases hs
        refine h.setForward fun f hf hsucc => h.answered i f hf ?_
        rw [hi] at hf
        cases hf
        exact hsucc
      · cases hs
    | submitPersist k _ | submitCommit k | submitFail k | submitReturn k | submitGiveUp k =>
      -- the call moves to another phase; a caller is told of success only in the acknowledged one
      simp only [Raft.step, Cluster.submitPersist, Cluster.submitCommit, Cluster.submitFail,
        Cluster.submitReturn, Cluster.submitGiveUp] at hs
      split at hs
      · rename_i n entry len origin hk
        try split_ifs at hs
        all_goals
          cases hs
          apply ForwardInv.setSubmit
          · exact ⟨h.command, h.answered⟩
          · exact hk
          · exact nofun
          · first | exact fun _ => rfl | exact nofun
      · cases hs
    | _ => cases ha

omit [Fintype N] in
theorem forwardInv_reach {ok : Cluster N C B S → Action N C → Prop}
    (h : Reach (Raft.step cfg cb) ok (Cluster.init cb) s) : ForwardInv s :=
  h.invariant ⟨fun _ hc => (by cases hc), fun _ _ hf => (by cases hf)⟩
    fun _ _ _ hi _ hu => hi.step hu

/-! ## Acknowledgements -/

/-- **Acknowledgement soundness.**  Every node that ever applies the index of an acknowledged
`Submit` applies the entry of that `Submit`, and a forwarded `Propose` that returned nil has such a
`Submit` of its own, for its command. -/
theorem acknowledged_applied (hs : Reach (step cfg cb) Vouched (Cluster.init cb) s) :
    (∀ c ∈ s.submits, c.phase = .acked → ∀ n e, (n, e) ∈ s.applied →
      e.index = c.entry.index → e = c.entry) ∧
    ∀ i f, s.forwards[i]? = some f → f.phase = .returned true →
      ∃ c ∈ s.submits, c.origin = some i ∧ c.phase = .acked ∧ c.entry.command = f.command := by
  obtain ⟨g, hg, hack⟩ := ackSim_reach hs
  refine ⟨fun c hc hp n e he hi => ?_, fun i f hi hp => ?_⟩
  · exact (hg.items.applied _ he).unique hg.sound.inv (hack c hc hp) hi
  · exact (forwardInv_reach hs).answered i f hi (by rw [hp]; rfl)

/-- `Vouched`, evaluated. -/
def returnsOwn (s : Cluster N C B S) (a : Action N C) : Bool :=
  commitsAsLeader s a && match a with
    | .submitReturn k => match s.submits[k]? with
      | some c => decide ((s.node c.self).state = .leader) &&
          decide ((s.node c.self).currentTerm = c.entry.term)
      | none => true
    | _ => true

omit [Fintype N] [DecidableEq N] in
theorem vouched_of_checked (hio : a.ioOk = true) (h : returnsOwn s a = true) : Vouched s a := by
  obtain ⟨hc, hr⟩ := (Bool.and_eq_true _ _).mp h
  refine ⟨steady_of_checked hio hc, ?_⟩
  cases a with
  | submitReturn k =>
    intro c hc
    simp only [hc, Bool.and_eq_true, decide_eq_true_eq] at hr
    exact .inl hr
  | _ => trivial

/-- Node `b` hears of the leader `a`, forwards the command `9` to it, and learns that it is
committed. -/
def forwardSchedule (a b c : N) : List (Action N Nat) :=
  [electionSchedule [a, b, c] 1 a [0] [2], appendSchedule a b 0 0,
    [.propose b 9, .forwardHandle 0, .submitPersist 0 true, .submitCommit 0],
    appendSchedule a b 1 1, [.submitReturn 0, .forwardReply 0, .applyTake a, .applyRun a]].flatten

theorem acknowledged_applied_forwarded :
    ∃ s : Cluster (Fin 3) Nat Nat Unit,
      Reach (step (.complete 3 1) .stateless) Vouched (Cluster.init .stateless) s ∧
      s.forwards = [⟨1, 0, 9, .returned true⟩] ∧
      ∃ c ∈ s.submits, c.origin = some 0 ∧ c.phase = .acked ∧ c.entry.command = 9 ∧
        ∀ n e, (n, e) ∈ s.applied → e.index = c.entry.index → e = c.entry := by
  have hrun : (execute (step (.complete 3 1) .stateless) returnsOwn
      (Cluster.init .stateless : Cluster (Fin 3) Nat Nat Unit) (forwardSchedule 0 1 2)).map
      (fun s => s.forwards) = some [⟨1, 0, 9, .returned true⟩] := by
    rfl
  obtain ⟨s, hs, hf⟩ := reach_observe (P := fun a => a.ioOk = true) (by decide +kernel)
    (fun _ _ => vouched_of_checked) hrun
  obtain ⟨happ, hfwd⟩ := acknowledged_applied hs
  obtain ⟨c, hc, horigin, hp, hcmd⟩ := hfwd 0 _ (by rw [hf]; rfl) rfl
  exact ⟨s, hs, hf, c, hc, horigin, hp, hcmd, happ c hc hp⟩

/-! ## A nil for a lost command -/

/-- Node `a` waits in `replicateEntry` with command `7` at index `1`.  Node `c` is elected without
it, fills index `1` with command `8`, commits it with node `b` and tells node `a`. -/
def lostSchedule (a b c : N) : List (Action N Nat) :=
  [electionSchedule [a, b, c] 1 a [0] [2], [.voteHandle 3],
    [.submit a 7, .submitPersist 0 true, .submitCommit 0],
    electionSchedule [a, b, c] 1 c [5] [7], [.submit c 8],
    appendSchedule c b 0 0, appendSchedule c a 1 1,
    [.submitReturn 0, .applyTake c, .applyRun c]].flatten

/-- **An acknowledged command is lost**: the index that `Submit` reported holds another command on a
node that has applied it.  No write fails and no deposed leader commits. -/
theorem acknowledged_lost :
    ∃ s : Cluster (Fin 3) Nat Nat Unit,
      Reach (step (.complete 3 1) .stateless) Steady (Cluster.init .stateless) s ∧
      ∃ c ∈ s.submits, c.phase = .acked ∧ ∃ n e, (n, e) ∈ s.applied ∧
        e.index = c.entry.index ∧ e.command ≠ c.entry.command := by
  have hrun : (execute (step (.complete 3 1) .stateless) commitsAsLeader
      (Cluster.init .stateless : Cluster (Fin 3) Nat Nat Unit) (lostSchedule 0 1 2)).map
      (fun s => (s.submits[0]?, s.applied)) =
        some (some ⟨0, ⟨1, 1, 7⟩, 1, none, .acked⟩, [(2, ⟨1, 2, 8⟩)]) := by
    rfl
  obtain ⟨s, hs, hobs⟩ := reach_observe (P := fun a => a.ioOk = true) (by decide +kernel)
    (fun _ _ => steady_of_checked) hrun
  obtain ⟨hsub, happ⟩ := Prod.mk.inj hobs
  refine ⟨s, hs, _, mem_of_getElem? hsub, rfl, 2, ⟨1, 2, 8⟩, ?_, rfl, by decide⟩
  rw [happ]
  exact mem_singleton_self _

end MxKeys.Raft
