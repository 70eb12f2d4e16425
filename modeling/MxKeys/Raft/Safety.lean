/-
# MxKeys.Raft.Safety — which entries the nodes of a cluster apply.

`state_machine_safety`: as long as writes succeed and every `Submit` that advances the commit index
does so while its node is the leader, all nodes apply the same entry at an index.  Under the same
condition `leader_complete`: a leader holds what any node of an older or equal term has committed.

The second condition is one that the code does not check.  `Submit` releases the lock while it
persists; when it takes it again, it runs `updateCommitIndex` whatever the node has become.
`applied_differ` is a run of five nodes in which a deposed leader does this: it counts the
`matchIndex` values of its old term for an entry of the new leader, takes an entry that only two
nodes have for committed, and applies it.
-/
import MxKeys.Raft.Simulation

namespace MxKeys.Raft

open MxKeys.Lib MxKeys.Consensus
open List

variable {N C B S : Type*} [Fintype N] [DecidableEq N] {cfg : Config N} {cb : Callbacks C B S}
  {s : Cluster N C B S}

/-- Writes succeed, and the commit index is advanced by leaders. -/
def Steady (s : Cluster N C B S) (a : Action N C) : Prop := a.ioOk = true ∧ CommitsAsLeader s a

/-- **The cluster refines the protocol**, along every run. -/
theorem sim_reach {ok : Cluster N C B S → Action N C → Prop} (hok : ∀ s a, ok s a → Steady s a)
    (h : Reach (step cfg cb) ok (Cluster.init cb) s) : ∃ g, Sim cfg g s := by
  have hall : (∃ g, Refines cfg g s) ∧ Unfailed s := by
    refine h.invariant (P := fun s => (∃ g, Refines cfg g s) ∧ Unfailed s)
      ⟨⟨_, refines_init cfg cb⟩, unfailed_init cb⟩ ?_
    rintro t a u ⟨⟨g, hg⟩, hun⟩ ha hu
    obtain ⟨hio, hl⟩ := hok t a ha
    obtain ⟨g', _, hg'⟩ := hg.step hun.keepsEntry hl hu
    exact ⟨⟨g', hg'⟩, hun.step hio hu⟩
  obtain ⟨⟨g, hg⟩, _⟩ := hall
  exact ⟨g, hg.sim⟩

/-- Entries backed by one history are the same at the same index. -/
theorem CommittedEntry.unique {g : History N (LogEntry C)} (h : Inv g) {e e' : LogEntry C}
    (he : CommittedEntry g e) (he' : CommittedEntry g e') (hi : e.index = e'.index) : e = e' := by
  have hc := he'.2
  rw [← hi] at hc
  exact h.committed_unique he.2 hc

/-- **State-machine safety.**  Whatever two nodes have passed to `onApply` at the same index is the
same entry. -/
theorem state_machine_safety (hs : Reach (step cfg cb) Steady (Cluster.init cb) s) {n m : N}
    {e e' : LogEntry C} (hn : (n, e) ∈ s.applied) (hm : (m, e') ∈ s.applied)
    (hindex : e.index = e'.index) : e.term = e'.term ∧ e.command = e'.command := by
  obtain ⟨g, hg⟩ := sim_reach (fun _ _ h => h) hs
  obtain rfl : e = e' :=
    (hg.items.applied _ hn).unique hg.sound.inv (hg.items.applied _ hm) hindex
  exact ⟨rfl, rfl⟩

/-- `CommitsAsLeader`, evaluated. -/
def commitsAsLeader (s : Cluster N C B S) : Action N C → Bool
  | .submitCommit k => match s.submits[k]? with
    | some c => decide ((s.node c.self).state = .leader)
    | none => true
  | _ => true

omit [Fintype N] [DecidableEq N] in
theorem steady_of_checked {a : Action N C} (hio : a.ioOk = true)
    (h : commitsAsLeader s a = true) : Steady s a := by
  refine ⟨hio, ?_⟩
  cases a with
  | submitCommit k =>
    intro c hc
    simp only [commitsAsLeader, hc] at h
    exact of_decide_eq_true h
  | _ => trivial

/-- Node `a` is elected, replicates the command `7` to node `b`, and both apply it. -/
def applySchedule (a b c : N) : List (Action N Nat) :=
  [electionSchedule [a, b, c] 1 a [0] [2],
    [.submit a 7, .submitPersist 0 true, .submitCommit 0],
    appendSchedule a b 0 0, [.applyTake a, .applyRun a],
    appendSchedule a b 1 1, [.applyTake b, .applyRun b]].flatten

theorem state_machine_safety_threeNodes :
    ∃ s : Cluster (Fin 3) Nat Nat Unit,
      Reach (step (.complete 3 1) .stateless) Steady (Cluster.init .stateless) s ∧
      (0, ⟨1, 1, 7⟩) ∈ s.applied ∧ ∀ m e, (m, e) ∈ s.applied → e.index = 1 →
        e.term = 1 ∧ e.command = 7 := by
  have hrun : (execute (step (.complete 3 1) .stateless) commitsAsLeader
      (Cluster.init .stateless : Cluster (Fin 3) Nat Nat Unit) (applySchedule 0 1 2)).map
      (fun s => s.applied) = some [(1, ⟨1, 1, 7⟩), (0, ⟨1, 1, 7⟩)] := by
    decide +kernel
  obtain ⟨s, hs, happ⟩ := reach_observe (P := fun a => a.ioOk = true) (by decide +kernel)
    (fun _ _ => steady_of_checked) hrun
  have hmem : ((0 : Fin 3), (⟨1, 1, 7⟩ : LogEntry Nat)) ∈ s.applied := by
    rw [happ]
    exact mem_cons_of_mem _ mem_cons_self
  exact ⟨s, hs, hmem, fun m e hm hi => state_machine_safety hs hm hmem hi⟩

/-- **Leader completeness.**  The log of a leader reaches to the commit index of every node whose
term is not newer than its own, and it holds the entries which that node knows to be committed,
unless its snapshot covers them. -/
theorem leader_complete (hs : Reach (step cfg cb) Steady (Cluster.init cb) s) {n m : N}
    (hlead : (s.node n).state = .leader)
    (hterm : (s.node m).currentTerm ≤ (s.node n).currentTerm) :
    (s.node m).commitIndex ≤ (s.node n).logLen ∧
    ∀ i e, i ≤ (s.node m).commitIndex → (s.node m).entryAt i = some e →
      i ≤ (s.node n).snapshotIndex ∨ (s.node n).entryAt i = some e := by
  obtain ⟨g, hg⟩ := sim_reach (fun _ _ h => h) hs
  obtain ⟨hwon, hfull⟩ := (hg.node n).leads hg.sound hlead
  have hterm' : g.termOf m ≤ (s.node n).currentTerm := (hg.node m).term.trans_le hterm
  have hag : Agree (g.full m) (g.full n) (s.node m).commitIndex := by
    rw [hfull]
    exact hg.sound.inv.known_agree_leader (hg.node m).commit hterm' ⟨n, hwon⟩
  refine ⟨?_, fun i e hi he => ?_⟩
  · -- a committed position of `m` is one of the leader's log
    by_contra hlt
    have hlen := hg.sound.inv.known_le_length (hg.node m).commit
    rw [(hg.node n).logLen_eq hg.sound] at hlt
    obtain ⟨e, he⟩ := exists_getElem? (l := g.full m) (k := (g.full n).length) (by omega)
    rw [hag _ (by omega), getElem?_eq_none le_rfl] at he
    cases he
  · obtain ⟨hoff, hfm⟩ := (hg.node m).entryAt_full he
    rw [(hg.node n).boundary]
    rcases le_or_gt i (s.node n).logOffset with hle | hgt
    · exact .inl hle
    · right
      rw [(hg.node n).entryAt_eq hgt, ← hag _ (by omega)]
      exact hfm

theorem leader_complete_threeNodes :
    ∃ s : Cluster (Fin 3) Nat Nat Unit,
      Reach (step (.complete 3 1) .stateless) Steady (Cluster.init .stateless) s ∧
      (s.node 0).state = .leader ∧ (s.node 1).entryAt 1 = some ⟨1, 1, 7⟩ ∧
      (1 ≤ (s.node 0).snapshotIndex ∨ (s.node 0).entryAt 1 = some ⟨1, 1, 7⟩) := by
  have hrun : (execute (step (.complete 3 1) .stateless) commitsAsLeader
      (Cluster.init .stateless : Cluster (Fin 3) Nat Nat Unit) (applySchedule 0 1 2)).map
      (fun s => ((s.node 0).state, (s.node 0).currentTerm, (s.node 1).currentTerm,
        (s.node 1).commitIndex, (s.node 1).entryAt 1)) =
      some (.leader, 1, 1, 1, some ⟨1, 1, 7⟩) := by
    decide +kernel
  obtain ⟨s, hs, hobs⟩ := reach_observe (P := fun a => a.ioOk = true) (by decide +kernel)
    (fun _ _ => steady_of_checked) hrun
  simp only [Prod.mk.injEq] at hobs
  obtain ⟨hl, h0, h1, hc, he⟩ := hobs
  exact ⟨s, hs, hl, he, (leader_complete hs hl (by omega)).2 1 _ (by omega) he⟩

/-! ## A deposed leader commits -/

/-- A node waits out the election timeout and wins over the pre-votes `pre` and the votes `real`;
the calls `deaf` in between are handled without a vote coming back. -/
def takeover (n : Fin 5) (pre deaf real : List Nat) : List (Action (Fin 5) Nat) :=
  [[0, 1, 2, 3, 4].map fun m => .tick m 1, [.timerExpire n 0, .startPreVote n], voteRound n pre,
    [.finishBallot n, .campaign n], deaf.map fun i => .voteHandle i, voteRound n real,
    [.finishBallot n]].flatten

/-- Node `0` leads term `1` with two entries; node `2` leads term `2` with one of its own; node `0`
leads term `3` and ships its old entries to nodes `1` and `3`, whose `matchIndex` is `2` from then
on; node `2` leads term `4` and overwrites the log of node `0`.  Now the `Submit` of term `1` that
was still persisting returns to node `0` and counts.  Node `1`, whose log is longer, wins term `5`
and commits what node `0` had at first. -/
def deposedSchedule : List (Action (Fin 5) Nat) :=
  [takeover 0 [0, 1] [] [4, 5],
    [.submit 0 1, .submit 0 2, .submitPersist 0 true, .submitCommit 0, .submitPersist 1 true],
    takeover 2 [10, 11] [12] [14, 15], [.submit 2 11],
    takeover 0 [16, 18] [21] [20, 22],
    appendSchedule 0 1 0 0, appendSchedule 0 1 1 1, appendSchedule 0 1 2 2,
    appendSchedule 0 3 3 3, appendSchedule 0 3 4 4, appendSchedule 0 3 5 5,
    takeover 2 [26, 27] [30] [29, 31], [.submit 2 12],
    appendSchedule 2 0 6 6, appendSchedule 2 0 7 7,
    [.submitCommit 1, .applyTake 0, .applyRun 0],
    takeover 1 [34, 35] [] [38, 39], [.submit 1 3],
    appendSchedule 1 3 8 8, appendSchedule 1 4 9 9, appendSchedule 1 4 10 10,
    appendSchedule 1 4 11 11, [.applyTake 1, .applyRun 1]].flatten

/-- **Two nodes apply different entries at index `1`**, with every write succeeding. -/
theorem applied_differ :
    ∃ s : Cluster (Fin 5) Nat Nat Unit,
      Reach (step (.complete 5 1) .stateless) (fun _ a => a.ioOk = true)
        (Cluster.init .stateless) s ∧
      ∃ n m e e', (n, e) ∈ s.applied ∧ (m, e') ∈ s.applied ∧ e.index = e'.index ∧
        ¬(e.term = e'.term ∧ e.command = e'.command) := by
  have hrun : (execute (step (.complete 5 1) .stateless) (fun _ a => a.ioOk)
      (Cluster.init .stateless : Cluster (Fin 5) Nat Nat Unit) deposedSchedule).map
      (fun s => s.applied) = some [(1, ⟨1, 1, 1⟩), (0, ⟨1, 2, 11⟩)] := by
    decide +kernel
  obtain ⟨s, hs, happ⟩ := reach_observe (P := fun _ => True) (fun _ _ => trivial)
    (fun _ _ _ h => h) hrun
  refine ⟨s, hs, 1, 0, ⟨1, 1, 1⟩, ⟨1, 2, 11⟩, ?_, ?_, rfl, by decide⟩
  · rw [happ]
    exact mem_cons_self
  · rw [happ]
    exact mem_cons_of_mem _ mem_cons_self

end MxKeys.Raft
