/-
# MxKeys.Raft.Senders — who sends what a leader sends.

`leader_messages`: every `AppendEntries` request and every `InstallSnapshot` chunk that is sent
names the node that was elected in the term it carries, provided that `SendInstallSnapshot` samples
the term while its node is the leader.

That proviso is not checked by the code.  `appendEntriesSnapshot` reads the term under the same lock
as the leadership; `SendInstallSnapshot` checks leadership (`needsSnapshotCatchUp`), releases the
lock, reads the file, and takes the lock again for the term alone.  `chunk_of_deposed_leader` is a
run in which the node is deposed in between and streams its snapshot as the leader of a term that
another node has won.
-/
import MxKeys.Raft.Election
import MxKeys.Raft.Layout

namespace MxKeys.Raft

open MxKeys.Lib
open List Option Function

variable {N C B S : Type*}

/-! ## What was sent -/

/-- `Sent cfg s T n`: some request was sent with term `T` and leader `n`. -/
inductive Sent (cfg : Config N) (s : Cluster N C B S) : Nat → N → Prop
  | appendEntries {c : AppendCall N C} (hc : c ∈ s.appends) : Sent cfg s c.req.term c.req.leaderId
  | installSnapshot {c : SnapCall N B} (hc : c ∈ s.snaps) (hstarted : c.phase.started = true) :
      Sent cfg s (snapshotChunk cfg c.sender c.snap c.term c.offset).term
        (snapshotChunk cfg c.sender c.snap c.term c.offset).leaderID

/-- `SendInstallSnapshot` samples the term of a leader. -/
def SamplesAsLeader (s : Cluster N C B S) : Action N C → Prop
  | .sampleTerm i => ∀ c, s.snaps[i]? = some c → (s.node c.sender).state = .leader
  | _ => True

/-- The invariant: requests and streams belong to elected nodes, and a handler that is going to
answer a stream was reached by one of its chunks. -/
structure SenderInv (s : Cluster N C B S) : Prop where
  appends : ∀ c ∈ s.appends, (c.req.term, c.req.leaderId) ∈ s.elections
  snaps : ∀ c ∈ s.snaps, c.phase.started = true → (c.term, c.sender) ∈ s.elections
  jobs : ∀ n j i, s.snapMu n = some j → j.call = some i →
    ∃ c, s.snaps[i]? = some c ∧ c.phase.started = true

variable {cfg : Config N} {cb : Callbacks C B S}
  {s s' : Cluster N C B S}

theorem senderInv_init (cb : Callbacks C B S) : SenderInv (Cluster.init cb : Cluster N C B S) where
  appends := nofun
  snaps := nofun
  jobs := nofun

/-! ## One step -/

section

variable [DecidableEq N] {a : Action N C} (hs : step cfg cb s a = some s')
include hs

/-- A stream that was started stays so. -/
theorem started_step {i : Nat} {c : SnapCall N B} (hi : s.snaps[i]? = some c)
    (hc : c.phase.started = true) : ∃ d, s'.snaps[i]? = some d ∧ d.phase.started = true := by
  have hlt := (List.getElem?_eq_some_iff.1 hi).1
  have hset : ∀ {k : Nat} {d : SnapCall N B}, d.phase.started = true →
      ∃ d', (s.snaps.set k d)[i]? = some d' ∧ d'.phase.started = true := by
    intro k d hd
    by_cases hk : k = i
    · subst hk
      exact ⟨d, getElem?_set_self hlt, hd⟩
    · rw [getElem?_set_ne hk]
      exact ⟨c, hi, hc⟩
  rcases snaps_step hs with h | ⟨_, h⟩ | ⟨_, _, h⟩ | ⟨_, _, hp, h⟩
  · exact ⟨c, h ▸ hi, hc⟩
  · rw [h, getElem?_append_left hlt]
    exact ⟨c, hi, hc⟩
  · rw [h]
    exact hset rfl
  · rw [h]
    exact hset hp

/-- **One step**, in which a sampled term is a leader's. -/
theorem SenderInv.step [Fintype N] (h : SenderInv s) (hinv : ElectionInv s)
    (ha : SamplesAsLeader s a) : SenderInv s' := by
  have he := elections_mono hs
  refine ⟨fun c' hc' => ?_, fun c' hc' hst => ?_, fun n j i hj hi => ?_⟩
  · obtain ⟨c, hc, _, rfl⟩ | ⟨_, n, _, req, _, _, _, hreq, rfl⟩ := requests_step hs hc'
    · exact he _ (h.appends c hc)
    · -- leadership and term are read in the same section
      obtain ⟨hlead, hterm, hid⟩ : (s.node n).state = .leader ∧
          req.term = (s.node n).currentTerm ∧ req.leaderId = n := by
        unfold appendEntriesSnapshot at hreq
        split_ifs at hreq with hl
        obtain ⟨rfl, _⟩ := Prod.mk.inj (some.inj hreq)
        exact ⟨hl, rfl, rfl⟩
      show (req.term, req.leaderId) ∈ s'.elections
      rw [hterm, hid]
      exact he _ (hinv.leads n hlead)
  · refine he _ ?_
    rcases snaps_step hs with hsame | ⟨_, happ⟩ | ⟨rfl, hi, hset⟩ | @⟨_, c, _, _, hi, hc, _, hset⟩
    · exact h.snaps c' (hsame ▸ hc') hst
    · rw [happ] at hc'
      rcases mem_append.1 hc' with hc' | hc'
      · exact h.snaps c' hc' hst
      · rw [mem_singleton.1 hc'] at hst
        cases hst
    · rw [hset] at hc'
      rcases mem_or_eq_of_mem_set hc' with hc' | rfl
      · exact h.snaps c' hc' hst
      · exact hinv.leads _ (ha _ hi)
    · rw [hset] at hc'
      rcases mem_or_eq_of_mem_set hc' with hc' | rfl
      · exact h.snaps c' hc' hst
      · refine h.snaps c (mem_of_getElem? hi) ?_
        rcases hc with hc | ⟨n, j, hj, hcall⟩
        · exact hc
        · obtain ⟨_, hi', hstarted⟩ := h.jobs n j _ hj hcall
          cases hi.symm.trans hi'
          exact hstarted
  · cases jobs_step hs n j hj with
    | compacts _ hnone =>
      rw [hi] at hnone
      cases hnone
    | same hj₀ _ hi₀ =>
      obtain ⟨_, hc, hstarted⟩ := h.jobs n _ i hj₀ (hi₀ ▸ hi)
      exact started_step hs hc hstarted
    | install _ hi' hc hstarted =>
      cases hi.symm.trans hi'
      exact ⟨_, hc, hstarted⟩

end

/-! ## Every run -/

theorem senderInv_reach [Fintype N] [DecidableEq N]
    (h : Reach (step cfg cb) SamplesAsLeader (Cluster.init cb) s) :
    SenderInv s := by
  have hall : SenderInv s ∧ ElectionInv s :=
    h.invariant (P := fun s => SenderInv s ∧ ElectionInv s)
      ⟨senderInv_init cb, electionInv_init cb⟩
      fun _ _ _ hi ha hu => ⟨hi.1.step hu hi.2 ha, hi.2.step hu⟩
  exact hall.1

/-- **Leader messages come from the leader.**  The node that a request names was elected in the
request's term, and no other node was. -/
theorem leader_messages [Fintype N] [DecidableEq N]
    (hs : Reach (step cfg cb) SamplesAsLeader (Cluster.init cb) s) {T : Nat} {n : N}
    (h : Sent cfg s T n) :
    (T, n) ∈ s.elections ∧ ∀ m, (T, m) ∈ s.elections → m = n := by
  have hsend := senderInv_reach hs
  have hwon : (T, n) ∈ s.elections := by
    cases h with
    | appendEntries hc => exact hsend.appends _ hc
    | installSnapshot hc hstarted => exact hsend.snaps _ hc hstarted
  exact ⟨hwon, fun m hm => (electionInv_reach hs).unique hm hwon⟩

/-- Node `a` is elected with the help of `b`, commits and applies an entry, and compacts its log. -/
def compactSchedule (a b c : N) : List (Action N Nat) :=
  [electionSchedule [a, b, c] 1 a [0] [2],
    [.submit a 7, .submitPersist 0 true, .submitCommit 0],
    appendSchedule a b 0 0, [.applyTake a, .applyRun a],
    [.compactStart a, .compactCheck a, .compactSave a true, .compactEnd a true]].flatten

/-- `SamplesAsLeader`, evaluated. -/
def samplesAsLeader (s : Cluster N C B S) : Action N C → Bool
  | .sampleTerm i => match s.snaps[i]? with
    | some c => decide ((s.node c.sender).state = .leader)
    | none => true
  | _ => true

theorem samplesAsLeader_of_checked {a : Action N C} (h : samplesAsLeader s a = true) :
    SamplesAsLeader s a := by
  cases a with
  | sampleTerm i =>
    intro c hc
    simp only [samplesAsLeader, hc] at h
    exact of_decide_eq_true h
  | _ => trivial

/-- What is to be seen of the streams. -/
def Cluster.streams (s : Cluster N C B S) : List (Nat × N × Bool) :=
  s.snaps.map fun c => (c.term, c.sender, c.phase.started)

theorem sent_of_streams {T : Nat} {n : N} (h : (T, n, true) ∈ s.streams) : Sent cfg s T n := by
  obtain ⟨c, hc, heq⟩ := List.mem_map.1 h
  obtain ⟨rfl, rest⟩ := Prod.mk.inj heq
  obtain ⟨rfl, hst⟩ := Prod.mk.inj rest
  exact .installSnapshot hc hst

/-- Node `0` streams its snapshot to node `2` while it leads. -/
theorem leader_messages_stream :
    ∃ s : Cluster (Fin 3) Nat Nat Nat,
      Reach (step (.complete 3 1) .lastIndex) SamplesAsLeader (Cluster.init .lastIndex) s ∧
      Sent (.complete 3 1) s 1 0 ∧ ∀ m, (1, m) ∈ s.elections → m = 0 := by
  have hrun : (execute (step (.complete 3 1) .lastIndex) samplesAsLeader
      (Cluster.init .lastIndex : Cluster (Fin 3) Nat Nat Nat)
      (compactSchedule 0 1 2 ++ [.sendStart 0 2, .loadSnapshot 1, .sampleTerm 0])).map
      Cluster.streams = some [(1, 0, true)] := by
    decide +kernel
  obtain ⟨s, hs, hobs⟩ := reach_observe (P := fun _ => True) (fun _ _ => trivial)
    (fun _ _ _ => samplesAsLeader_of_checked) hrun
  have hsent : Sent (.complete 3 1) s 1 0 := by
    apply sent_of_streams
    rw [hobs]
    exact mem_singleton_self _
  exact ⟨s, hs, hsent, (leader_messages hs hsent).2⟩

/-- **Node `0` streams its snapshot as the leader of term `2`, which node `1` has won.**  The
election falls between the file and the term. -/
theorem chunk_of_deposed_leader :
    ∃ s : Cluster (Fin 3) Nat Nat Nat,
      Reach (step (.complete 3 1) .lastIndex) anyAction (Cluster.init .lastIndex) s ∧
      Sent (.complete 3 1) s 2 0 ∧ s.elections = [(2, 1), (1, 0)] := by
  have hrun : (execute (step (.complete 3 1) .lastIndex) (fun _ _ => true)
      (Cluster.init .lastIndex : Cluster (Fin 3) Nat Nat Nat)
      (compactSchedule 0 1 2 ++ [.sendStart 0 2, .loadSnapshot 1] ++
        electionSchedule [0, 1, 2] 1 1 [5] [7] ++ [.voteHandle 6, .sampleTerm 0])).map
      (fun s => (s.streams, s.elections)) = some ([(2, 0, true)], [(2, 1), (1, 0)]) := by
    decide +kernel
  obtain ⟨s, hs, hobs⟩ := reach_observe_any hrun
  obtain ⟨hstreams, helections⟩ := Prod.mk.inj hobs
  refine ⟨s, hs, ?_, helections⟩
  apply sent_of_streams
  rw [hstreams]
  exact mem_singleton_self _

end MxKeys.Raft
