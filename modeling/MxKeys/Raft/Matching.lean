/-
# MxKeys.Raft.Matching — log matching on what a node still shows.

A node shows the entries it has in memory and, below them, index and term of its snapshot.
`visible_matching`: two nodes that show the same term at an index show the same thing at every lower
index that both show, and the terms of one node never go down.

In the window this is the log matching of the protocol.  At the boundary it is not: the protocol
lets a replica install a committed prefix under whatever tail it has, and so does
`handleInstallSnapshot`, which keeps every entry above `LastIncludedIndex` without asking whether
the log had `LastIncludedTerm` there.  What has to be carried along is that the first entry in
memory was made on top of the snapshot (`Joined`).  AppendEntries and compaction keep this, and an
installation does if it keeps nothing or if the terms at the boundary are equal (`JoinsTail`).
`stale_tail_kept` is a run in which neither is the case.
-/
import MxKeys.Raft.Safety
import MxKeys.Raft.Sections

namespace MxKeys.Raft

open MxKeys.Lib MxKeys.Consensus
open List Option

variable {N C B S : Type*}

/-! ## The condition -/

/-- An installation keeps no entry, or finds the snapshot's last entry in the log. -/
def JoinsTail (s : Cluster N C B S) : Action N C → Prop
  | .installEnd n _ => ∀ i index term data, s.snapMu n = some (.renamed i index term data) →
      (s.node n).logLen ≤ index ∨ (s.node n).termAt index = some term
  | _ => True

/-- `Steady`, and installations are `JoinsTail`. -/
def SteadyJoins [DecidableEq N] (s : Cluster N C B S) (a : Action N C) : Prop :=
  Steady s a ∧ JoinsTail s a

/-! ## Snapshot and log join -/

section

variable [Fintype N] [DecidableEq N] {cfg : Config N} {g g' : History N (LogEntry C)} {n : N}
  {x y : Node N C B}

/-- The first entry in memory was made on top of the entry that the snapshot ends in. -/
def Joined (g : History N (LogEntry C)) (x : Node N C B) : Prop :=
  ∀ e, x.log[0]? = some e → 0 < x.logOffset →
    ∃ f, (g.hist e.term)[x.logOffset - 1]? = some f ∧ f.term = x.snapshotTerm

omit [Fintype N] [DecidableEq N] in
theorem Joined.evolve (h : Joined g x) (ev : Evolves g g') : Joined g' x := by
  intro e he hoff
  obtain ⟨f, hf, hft⟩ := h e he hoff
  exact ⟨f, getElem?_of_isPrefix (ev.hist _) hf, hft⟩

omit [Fintype N] [DecidableEq N] in
theorem Joined.frame (h : Joined g x) (hpart : y.logPart = x.logPart) : Joined g y := by
  simp only [Node.logPart, Prod.mk.injEq] at hpart
  obtain ⟨hlog, hoff, _, hterm⟩ := hpart
  unfold Joined
  rw [hlog, hoff, hterm]
  exact h

namespace NodeSim

section Sim

variable (hx : NodeSim cfg g n x) (h : Sound g)
include hx h

/-- The entry that the snapshot ends in. -/
theorem snapshot_entry (hoff : 0 < x.logOffset) :
    ∃ f, (g.full n)[x.logOffset - 1]? = some f ∧ f.term = x.snapshotTerm := by
  have hat : x.termAt x.logOffset = some x.snapshotTerm := by
    unfold Node.termAt
    rw [if_neg (by omega), if_pos hx.boundary.symm]
  exact (hx.termAt_full h hoff hat).2

/-- An entry of a leader that has the node's snapshot joins it. -/
theorem joined_of_leader (hoff : 0 < x.logOffset) {T : Nat}
    {e : LogEntry C} (hag : Agree (g.full n) (g.hist T) x.logOffset)
    (he : (g.hist T)[x.logOffset]? = some e) :
    ∃ f, (g.hist e.term)[x.logOffset - 1]? = some f ∧ f.term = x.snapshotTerm := by
  obtain ⟨f, hf, hft⟩ := hx.snapshot_entry h hoff
  refine ⟨f, ?_, hft⟩
  have hbelow : (g.hist T)[x.logOffset - 1]? = (g.hist e.term)[x.logOffset - 1]? :=
    h.inv.hist_match he (x.logOffset - 1) (by omega)
  rw [← hbelow, ← hag (x.logOffset - 1) (by omega)]
  exact hf

/-- `Submit` publishes on top of a log that the leader has made. -/
theorem joined_pushEntry (hj : Joined g x) (hl : x.state = .leader) (command : C) :
    Joined g (x.pushEntry ⟨x.logLen + 1, x.currentTerm, command⟩) := by
  intro e he hoff
  cases hlog : x.log with
  | cons e' rest =>
    have hold : x.log[0]? = some e := by
      simpa [Node.pushEntry, hlog] using he
    exact hj e hold hoff
  | nil =>
    obtain rfl : ⟨x.logLen + 1, x.currentTerm, command⟩ = e := by
      simpa [Node.pushEntry, hlog] using he
    obtain ⟨f, hf, hft⟩ := hx.snapshot_entry h hoff
    rw [(hx.leads h hl).2] at hf
    exact ⟨f, hf, hft⟩

/-- The first entry after a request is the one that was there, or one that the leader has made on
top of what the follower has compacted. -/
theorem joined_handleAppendEntries (hj : Joined g x)
    {now : Nat} {io : AppendIo} {req : AppendEntriesRequest N C} (hr : RequestSim g req)
    (hnum : ∀ k e, req.entries[k]? = some e → e.index = req.prevLogIndex + k + 1) :
    Joined g (Raft.handleAppendEntries cfg n now io x req).1 := by
  obtain ⟨y, r, hy⟩ : ∃ y r, Raft.handleAppendEntries cfg n now io x req = (y, r) := ⟨_, _, rfl⟩
  obtain ⟨hidx, hoff, _, hmem, _⟩ := handleAppendEntries_indexed cfg n now io x req (hx.indexed h)
    hx.boundary.le hnum hy
  rw [hy]
  rcases lt_or_ge req.term x.currentTerm with hstale | hfresh
  · rw [Raft.handleAppendEntries, if_pos hstale] at hy
    obtain ⟨rfl, _⟩ := Prod.mk.inj hy
    exact hj
  · have hterm : y.snapshotTerm = x.snapshotTerm := by
      obtain ⟨_, _, _, heq⟩ := handleAppendEntries_heard cfg n now io x req hfresh
      rw [hy] at heq
      rw [show y = _ from heq]
      rfl
    intro e he hpos
    have hi := hidx 0 e he
    rw [hoff] at hpos hi ⊢
    rw [hterm]
    rcases hmem e (mem_of_getElem? he) with hold | hnew
    · obtain ⟨k, hk⟩ := mem_iff_getElem?.1 hold
      have := hx.indexed h k e hk
      obtain rfl : k = 0 := by omega
      exact hj e hk hpos
    · obtain ⟨k, hk⟩ := mem_iff_getElem?.1 hnew
      have := hnum k e hk
      have hhist := hr.entries k e hk
      rw [show req.prevLogIndex + k = x.logOffset by omega] at hhist
      refine hx.joined_of_leader h hpos ?_ hhist
      rw [← hx.base]
      exact h.inv.known_agree_leader (h.inv.replica n).base_known (hx.term ▸ hfresh)
        hr.elected

/-- Above an index in the window, the first entry kept was made on top of the entry at it. -/
theorem joined_window {A : Nat} (hA : x.logOffset < A)
    {e f : LogEntry C} (he : x.log[A - x.logOffset]? = some e) (hf : (g.full n)[A - 1]? = some f) :
    (g.hist e.term)[A - 1]? = some f := by
  rw [hx.log_getElem?, show x.logOffset + (A - x.logOffset) = A by omega] at he
  obtain ⟨_, _, _, hag⟩ := (h.inv.replica n).log_wf A e (by rw [hx.base]; omega) he
  rw [← hf]
  exact (hag (A - 1) (by rw [hx.base]; omega) (by omega)).symm

theorem joined_compactFinish (hj : Joined g x) {A t : Nat}
    (hk : Known g n A) (hb : Boundary g (g.termOf n) A t) (wal : List (LogEntry C)) :
    Joined g ((Raft.compactFinish x A t).setWal wal) := by
  rcases lt_or_ge x.snapshotIndex A with hlt | hge
  · obtain ⟨hlog, hoff, _, hterm⟩ := compactFinish_log hx.boundary hlt t
    intro e he _
    change (Raft.compactFinish x A t).log[0]? = some e at he
    show ∃ f, (g.hist e.term)[(Raft.compactFinish x A t).logOffset - 1]? = some f ∧
      f.term = (Raft.compactFinish x A t).snapshotTerm
    rw [hlog, getElem?_drop, Nat.add_zero] at he
    rw [hoff, hterm]
    obtain ⟨f, hf, hft⟩ := h.inv.boundary_entry hk hb
    exact ⟨f, hx.joined_window h (hx.boundary ▸ hlt) he hf, hft⟩
  · refine hj.frame ?_
    unfold Raft.compactFinish
    rw [if_pos hge]
    rfl

/-- An installation keeps an entry only if the terms at the boundary are equal. -/
theorem joined_finishInstall (hj : Joined g x) {L t : Nat}
    (hL : x.logOffset ≤ L) (hjoin : x.logLen ≤ L ∨ x.termAt L = some t) (wal : List (LogEntry C)) :
    Joined g ((Raft.finishInstall x L t).setWal wal) := by
  intro e he hpos
  change (Raft.finishInstall x L t).log[0]? = some e at he
  rw [finishInstall_log (hx.indexed h), getElem?_drop, Nat.add_zero] at he
  have hkept := lt_length_of_getElem? he
  change 0 < max x.logOffset L at hpos
  show ∃ f, (g.hist e.term)[max x.logOffset L - 1]? = some f ∧ f.term = t
  rw [max_eq_right hL] at hpos ⊢
  unfold Node.logLen at hjoin
  have hat := hjoin.resolve_left (by omega)
  rcases lt_or_ge x.logOffset L with hlt | hge
  · obtain ⟨_, f, hf, hft⟩ := hx.termAt_full h hpos hat
    exact ⟨f, hx.joined_window h hlt he hf, hft⟩
  · obtain rfl : L = x.logOffset := by omega
    unfold Node.termAt at hat
    rw [if_neg (by omega), if_pos hx.boundary.symm] at hat
    rw [Nat.sub_self] at he
    obtain ⟨f, hf, hft⟩ := hj e he hpos
    exact ⟨f, hf, hft.trans (some.inj hat)⟩

end Sim

end NodeSim

/-! ## Along a run -/

variable {cb : Callbacks C B S} {s s' : Cluster N C B S} {a : Action N C}

/-- **Every section keeps snapshot and log joined.** -/
theorem Section.joined (hsec : Section cfg s a n x) (h : Refines cfg g s) (hun : Unfailed s)
    (hj : Joined g (s.node n)) (htail : JoinsTail s a) : Joined g x := by
  have hn := h.sim.node n
  have hsound := h.sim.sound
  cases hsec with
  | requestVote => exact hj.frame (logPart_handleRequestVote _ _ _)
  | voteReply | chunkReply => exact hj.frame (logPart_observeTerm _ _)
  | appendEntries io hi =>
    have hmem := mem_of_getElem? hi
    exact hn.joined_handleAppendEntries hsound hj (h.sim.items.appends _ hmem).req
      (h.layout.msgs _ hmem)
  | appendReply => exact hj.frame (logPart_appendEntriesReply _ _ _ _ _ _ _)
  | chunk => exact hj.frame (logPart_handleInstallSnapshot _ _ _ _ _ _)
  | finishInstall walOk hmu wal =>
    have hL := h.layout.jobs n _ _ hmu rfl
    rw [h.layout.boundary n] at hL
    exact hn.joined_finishInstall hsound hj hL (htail _ _ _ _ hmu) wal
  | finishCompact walOk hmu wal =>
    obtain ⟨hknown, hbound⟩ := h.sim.items.jobs n _ hmu
    exact hn.joined_compactFinish hsound hj hknown hbound wal
  | publish command hlead => exact hn.joined_pushEntry hsound hj hlead command
  | commit => exact hj.frame (logPart_updateCommitIndex _ _ _)
  | rollback hk hphase => exact absurd hphase (hun _ (mem_of_getElem? hk)).1
  | campaign | elected | rename | snapshotSent | saveSnapshot | persist | apply =>
    exact hj.frame rfl

theorem joined_reach (hs : Reach (MxKeys.Raft.step cfg cb) SteadyJoins (Cluster.init cb) s) :
    ∃ g, Refines cfg g s ∧ ∀ n, Joined g (s.node n) := by
  have hall : (∃ g, Refines cfg g s ∧ ∀ n, Joined g (s.node n)) ∧ Unfailed s := by
    refine hs.invariant
      (P := fun s => (∃ g, Refines cfg g s ∧ ∀ n, Joined g (s.node n)) ∧ Unfailed s)
      ⟨⟨_, refines_init cfg cb, nofun⟩, unfailed_init cb⟩ ?_
    rintro t a u ⟨⟨g, hg, hj⟩, hun⟩ ⟨⟨hio, hl⟩, htail⟩ hu
    obtain ⟨g', ev, hg'⟩ := hg.step hun.keepsEntry hl hu
    refine ⟨⟨g', hg', fun n => ?_⟩, hun.step hio hu⟩
    refine Joined.evolve ?_ ev
    exact (step_node hu).relate (R := fun _ _ y => Joined g y) hj
      (fun m x hx => hx.joined hg hun (hj m) htail) n
  exact hall.1

/-! ## The result -/

/-- Below an entry in memory, a node shows what the leader of the entry's term had. -/
theorem shown_below (hx : NodeSim cfg g n x) (h : Sound g) (hj : Joined g x) {i : Nat}
    {e : LogEntry C} (he : x.entryAt i = some e) {j u : Nat} (hpos : 0 < j) (hji : j ≤ i)
    (hu : x.termAt j = some u) :
    ∃ f, (g.hist e.term)[j - 1]? = some f ∧ f.term = u ∧ ∀ e', x.entryAt j = some e' → e' = f := by
  obtain ⟨hoff, hfull⟩ := hx.entryAt_full he
  have hag : ∀ k, x.logOffset ≤ k → k ≤ i - 1 → (g.full n)[k]? = (g.hist e.term)[k]? := by
    rw [← hx.base]
    exact ((h.inv.replica n).log_wf (i - 1) e (by rw [hx.base]; omega) hfull).2.2.2
  rcases termAt_some hpos hu with ⟨hsnap, rfl⟩ | ⟨f, hf, rfl⟩
  · -- the boundary: through the first entry in memory
    rw [hx.boundary] at hsnap
    obtain ⟨hd, hhd⟩ := exists_getElem? (l := g.full n) (k := x.logOffset)
      (by have := lt_length_of_getElem? hfull; omega)
    have hlog : x.log[0]? = some hd := by
      rw [hx.log_getElem?]
      exact hhd
    obtain ⟨f, hf, hft⟩ := hj hd hlog (by omega)
    have hhist : (g.hist e.term)[x.logOffset]? = some hd := by
      rw [← hag x.logOffset le_rfl (by omega)]
      exact hhd
    refine ⟨f, ?_, hft, fun e' he' => ?_⟩
    · rw [hsnap, h.inv.hist_match hhist (x.logOffset - 1) (by omega)]
      exact hf
    · have := (hx.entryAt_full he').1
      omega
  · obtain ⟨hlt, hffull⟩ := hx.entryAt_full hf
    refine ⟨f, ?_, rfl, fun e' he' => ?_⟩
    · rw [← hag (j - 1) (by omega) (by omega)]
      exact hffull
    · rw [hf] at he'
      exact (some.inj he').symm

/-- A node whose boundary is at `i` shows nothing below. -/
theorem shown_at_boundary (hx : NodeSim cfg g n x) (h : Sound g) {i j u : Nat}
    (hi : i = x.snapshotIndex) (hpos : 0 < j) (hji : j ≤ i) (hu : x.termAt j = some u) : j = i := by
  rw [hx.boundary] at hi
  have := (hx.termAt_full h hpos hu).1
  omega

/-- Two nodes with an entry of one term at an index have come from one leader up to there. -/
theorem matching_below {m : N} (hx : NodeSim cfg g n x) (hy : NodeSim cfg g m y) (h : Sound g)
    (hjx : Joined g x) (hjy : Joined g y) {i : Nat} {e f : LogEntry C}
    (he : x.entryAt i = some e) (hf : y.entryAt i = some f) (hterm : f.term = e.term) {j u v : Nat}
    (hpos : 0 < j) (hji : j ≤ i) (hu : x.termAt j = some u) (hv : y.termAt j = some v) :
    u = v ∧ ∀ e' f', x.entryAt j = some e' → y.entryAt j = some f' → e' = f' := by
  obtain ⟨k, hk, rfl, hkx⟩ := shown_below hx h hjx he hpos hji hu
  obtain ⟨l, hl, rfl, hly⟩ := shown_below hy h hjy hf hpos hji hv
  rw [hterm, hk] at hl
  cases hl
  exact ⟨rfl, fun e' f' he' hf' => (hkx e' he').trans (hly f' hf').symm⟩

/-- **Log matching on what is visible.**  Two nodes that show the same term at an index show the
same term, and the same entry where both still have it, at every index up to there that both show;
and the terms that one node shows never go down. -/
theorem visible_matching (hs : Reach (MxKeys.Raft.step cfg cb) SteadyJoins (Cluster.init cb) s) :
    (∀ n m i t, 0 < i → (s.node n).termAt i = some t → (s.node m).termAt i = some t →
      ∀ j, 0 < j → j ≤ i →
        ∀ u v, (s.node n).termAt j = some u → (s.node m).termAt j = some v → u = v ∧
          ∀ e f, (s.node n).entryAt j = some e → (s.node m).entryAt j = some f → e = f) ∧
    ∀ n i j u v, 0 < i → i ≤ j → (s.node n).termAt i = some u → (s.node n).termAt j = some v →
      u ≤ v := by
  obtain ⟨g, hg, hjoined⟩ := joined_reach hs
  have hsound := hg.sim.sound
  refine ⟨fun n m i t hi hn hm j hpos hji u v hu hv => ?_, fun n i j u v hi hij hu hv => ?_⟩
  · -- at a boundary there is no entry, and nothing but `i` itself is shown
    have hedge : ∀ p w, i = (s.node p).snapshotIndex → (s.node p).termAt j = some w →
        j = i ∧ (s.node p).entryAt j = none := by
      intro p w hp hw
      have hji := shown_at_boundary (hg.sim.node p) hsound hp hpos hji hw
      refine ⟨hji, entryAt_of_le ?_⟩
      rw [← hg.layout.boundary p]
      omega
    rcases termAt_some hi hn with ⟨hb, _⟩ | ⟨e, he, rfl⟩
    · obtain ⟨rfl, hnone⟩ := hedge n u hb hu
      refine ⟨some.inj ((hu.symm.trans hn).trans (hm.symm.trans hv)), fun e f he _ => ?_⟩
      rw [hnone] at he
      cases he
    · rcases termAt_some hi hm with ⟨hb, _⟩ | ⟨f, hf, hft⟩
      · obtain ⟨rfl, hnone⟩ := hedge m v hb hv
        refine ⟨some.inj ((hu.symm.trans hn).trans (hm.symm.trans hv)), fun e f _ hf => ?_⟩
        rw [hnone] at hf
        cases hf
      · exact matching_below (hg.sim.node n) (hg.sim.node m) hsound (hjoined n) (hjoined m)
          he hf hft hpos hji hu hv
  · rcases termAt_some (by omega) hv with ⟨hb, _⟩ | ⟨e, he, rfl⟩
    · obtain rfl := shown_at_boundary (hg.sim.node n) hsound hb hi hij hu
      exact Nat.le_of_eq (some.inj (hu.symm.trans hv))
    · obtain ⟨f, hf, rfl, _⟩ := shown_below (hg.sim.node n) hsound (hjoined n) he hi hij hu
      exact hsound.inv.hist_term_le hf

/-- `JoinsTail`, evaluated. -/
def joinsTail (s : Cluster N C B S) : Action N C → Bool
  | .installEnd n _ => match s.snapMu n with
    | some (.renamed _ index term _) =>
      decide ((s.node n).logLen ≤ index) || (s.node n).termAt index == some term
    | _ => true
  | _ => true

omit [Fintype N] in
theorem steadyJoins_of_checked (hio : a.ioOk = true)
    (h : (commitsAsLeader s a && joinsTail s a) = true) : SteadyJoins s a := by
  obtain ⟨hlead, hjoin⟩ := Bool.and_eq_true_iff.1 h
  refine ⟨steady_of_checked hio hlead, ?_⟩
  cases a with
  | installEnd n walOk =>
    intro i index term data hmu
    simp only [joinsTail, hmu, Bool.or_eq_true, decide_eq_true_eq, beq_iff_eq] at hjoin
    exact hjoin
  | _ => trivial

end

/-- Node `n` compacts what it has applied. -/
def compactRound (n : N) : List (Action N Nat) :=
  [.compactStart n, .compactCheck n, .compactSave n true, .compactEnd n true]

/-- Node `n` sends its snapshot to `peer`, which installs it. -/
def snapshotRound (n peer : N) (task : Nat) : List (Action N Nat) :=
  [.sendStart n peer, .loadSnapshot task, .sampleTerm 0, .chunkHandle 0 .ok, .runInstaller peer,
    .renameSnapshot peer true, .installEnd peer true, .chunkReply 0, .snapshotDone 0]

/-- Node `c` gets the first command as a snapshot and the second as an entry, node `b` both as
entries. -/
def joinedSchedule (a b c : N) : List (Action N Nat) :=
  [electionSchedule [a, b, c] 1 a [0] [2], [.submit a 7, .submitPersist 0 true, .submitCommit 0],
    appendSchedule a b 0 0, [.applyTake a, .applyRun a], compactRound a, snapshotRound a c 1,
    [.submit a 8, .submitPersist 1 true, .submitCommit 1], appendSchedule a b 2 1,
    appendSchedule a c 3 2].flatten

theorem visible_matching_snapshot :
    ∃ s : Cluster (Fin 3) Nat Nat Nat,
      Reach (step (.complete 3 1) .lastIndex) SteadyJoins (Cluster.init .lastIndex) s ∧
      (s.node 2).snapshotIndex = 1 ∧ (s.node 1).termAt 2 = some 1 ∧ (s.node 2).termAt 2 = some 1 ∧
      ∀ u v, (s.node 1).termAt 1 = some u → (s.node 2).termAt 1 = some v → u = v := by
  have hrun : (execute (step (.complete 3 1) .lastIndex)
      (fun s a => commitsAsLeader s a && joinsTail s a)
      (Cluster.init .lastIndex : Cluster (Fin 3) Nat Nat Nat) (joinedSchedule 0 1 2)).map
      (fun s => ((s.node 2).snapshotIndex, (s.node 1).termAt 2, (s.node 2).termAt 2)) =
      some (1, some 1, some 1) := by
    decide +kernel
  obtain ⟨s, hs, hobs⟩ := reach_observe (P := fun a => a.ioOk = true) (by decide +kernel)
    (fun _ _ => steadyJoins_of_checked) hrun
  simp only [Prod.mk.injEq] at hobs
  obtain ⟨hsnap, hb, hc⟩ := hobs
  refine ⟨s, hs, hsnap, hb, hc, fun u v hu hv => ?_⟩
  exact ((visible_matching hs).1 1 2 2 1 (by decide) hb hc 1 (by decide) (by decide) u v hu hv).1

/-- Node `c` leads term `1` and makes three entries, which only node `d` gets.  Node `a` leads term
`2`, commits two entries of its own with `b` and `e`, compacts them and sends `c` the snapshot. -/
def staleTailSchedule (a b c d e : N) : List (Action N Nat) :=
  [electionSchedule [a, b, c, d, e] 1 c [0, 1] [4, 5], [.submit c 1, .submit c 2, .submit c 3],
    appendSchedule c d 0 0, electionSchedule [a, b, c, d, e] 1 a [8, 11] [12, 15],
    [.submit a 11, .submitPersist 3 true, .submitCommit 3, .submit a 12, .submitPersist 4 true,
      .submitCommit 4], appendSchedule a b 1 1, appendSchedule a e 2 2,
    [.applyTake a, .applyRun a, .applyTake a, .applyRun a], compactRound a,
    snapshotRound a c 3].flatten

/-- **A stale tail stays on top of a snapshot.**  Node `2` shows term `2` at index `2` and term `1`
at index `3`; node `3` has the same entry at index `3` and shows term `1` at index `2`. -/
theorem stale_tail_kept :
    ∃ s : Cluster (Fin 5) Nat Nat Nat,
      Reach (step (.complete 5 1) .lastIndex) Steady (Cluster.init .lastIndex) s ∧
      (s.node 2).termAt 2 = some 2 ∧ (s.node 2).termAt 3 = some 1 ∧
      (s.node 3).termAt 2 = some 1 ∧ (s.node 3).termAt 3 = some 1 := by
  have hrun : (execute (step (.complete 5 1) .lastIndex) commitsAsLeader
      (Cluster.init .lastIndex : Cluster (Fin 5) Nat Nat Nat) (staleTailSchedule 0 1 2 3 4)).map
      (fun s => ((s.node 2).termAt 2, (s.node 2).termAt 3, (s.node 3).termAt 2,
        (s.node 3).termAt 3)) = some (some 2, some 1, some 1, some 1) := by
    decide +kernel
  obtain ⟨s, hs, hobs⟩ := reach_observe (P := fun a => a.ioOk = true) (by decide +kernel)
    (fun _ _ => steady_of_checked) hrun
  simp only [Prod.mk.injEq] at hobs
  exact ⟨s, hs, hobs⟩

end MxKeys.Raft
