/-
# MxKeys.Raft.Layout — the log of every node is laid out as the accessors assume.

In every run, whatever the disks do: the entries in memory are numbered from `logOffset + 1` on, the
window starts where the snapshot ends, a snapshot being installed does not end below the node's own,
and the entries of an `AppendEntries` request are numbered from `PrevLogIndex + 1` on.

Most actions leave all of this alone; `logQuiet_step` says which, once, for every proof about logs.
-/
import MxKeys.Raft.LogView
import MxKeys.Raft.Sections

namespace MxKeys.Raft

open MxKeys.Lib
open List Function

variable {N C B S : Type*}

/-! ## The entries of a node -/

/-- The entry is in the log, or a snapshot covers it. -/
def Node.Holds (x : Node N C B) (e : LogEntry C) : Prop := e ∈ x.log ∨ e.index ≤ x.logOffset

section

variable {x y : Node N C B} {e : LogEntry C}

theorem Node.Holds.of_logPart (h : x.Holds e)
    (hpart : y.logPart = x.logPart) : y.Holds e := by
  simp only [Node.logPart, Prod.mk.injEq] at hpart
  unfold Node.Holds
  rw [hpart.1, hpart.2.1]
  exact h

/-- Entries cut off the front of a numbered log are covered. -/
theorem Node.Holds.drop (h : x.Holds e) (hx : x.Indexed) {L : Nat}
    (hlog : y.log = x.log.drop (L - x.logOffset)) (hoff : y.logOffset = max x.logOffset L) :
    y.Holds e := by
  rcases h with he | hle
  · obtain ⟨k, hk⟩ := mem_iff_getElem?.1 he
    have hidx := hx k e hk
    rcases Nat.lt_or_ge k (L - x.logOffset) with hlt | hge
    · exact .inr (by omega)
    · refine .inl (mem_of_getElem? (i := k - (L - x.logOffset)) ?_)
      rw [hlog, getElem?_drop, Nat.add_sub_cancel' hge]
      exact hk
  · exact .inr (by omega)

theorem Node.Holds.finishInstall (h : x.Holds e) (hx : x.Indexed) (L T : Nat) :
    (finishInstall x L T).Holds e := h.drop hx (finishInstall_log hx L T) rfl

theorem Node.Holds.compactFinish (h : x.Holds e) (hx : x.Indexed)
    (hb : x.snapshotIndex = x.logOffset) (A T : Nat) : (compactFinish x A T).Holds e := by
  rcases Nat.lt_or_ge x.snapshotIndex A with hlt | hge
  · obtain ⟨hlog, hoff, _, _⟩ := compactFinish_log hb hlt T
    exact h.drop hx hlog (by omega)
  · unfold Raft.compactFinish
    rw [if_pos hge]
    exact h

end

/-! ## Steps that leave the logs alone -/

/-- No log, no message and no published entry changes. -/
structure LogQuiet (s s' : Cluster N C B S) : Prop where
  node : ∀ n, (s'.node n).logPart = (s.node n).logPart
  submits : ∀ c' ∈ s'.submits, ∃ c ∈ s.submits, c'.entry = c.entry ∧ c'.self = c.self
  keeps : ∀ c ∈ s.submits, ∃ c' ∈ s'.submits, c'.entry = c.entry ∧ c'.self = c.self ∧
    ∀ r, c.phase = .rolledBack r → c'.phase = .rolledBack r

section

variable [DecidableEq N] {cfg : Config N} {cb : Callbacks C B S} {s s' : Cluster N C B S}
  {x : Node N C B} {n : N}

omit [DecidableEq N] in
/-- A call in the middle of a list is replaced by one that differs in its phase only. -/
theorem submits_set {l : List (SubmitCall N C)} {k : Nat} {c : SubmitCall N C}
    {phase : SubmitPhase C} (hk : l[k]? = some c) (hphase : ∀ r, c.phase ≠ .rolledBack r) :
    (∀ c' ∈ l.set k { c with phase := phase }, ∃ d ∈ l, c'.entry = d.entry ∧ c'.self = d.self) ∧
    ∀ d ∈ l, ∃ c' ∈ l.set k { c with phase := phase }, c'.entry = d.entry ∧ c'.self = d.self ∧
      ∀ r, d.phase = .rolledBack r → c'.phase = .rolledBack r := by
  have hlt := (List.getElem?_eq_some_iff.1 hk).1
  refine ⟨fun c' hc' => ?_, fun d hd => ?_⟩
  · rcases mem_or_eq_of_mem_set hc' with hc' | rfl
    · exact ⟨c', hc', rfl, rfl⟩
    · exact ⟨c, mem_of_getElem? hk, rfl, rfl⟩
  · obtain ⟨j, hj, rfl⟩ := getElem_of_mem hd
    by_cases hjk : k = j
    · subst hjk
      refine ⟨{ c with phase := phase }, mem_of_getElem? (getElem?_set_self hlt), ?_⟩
      rw [getElem?_eq_getElem hj] at hk
      rw [Option.some.inj hk]
      exact ⟨rfl, rfl, fun r hr => absurd hr (hphase r)⟩
    · refine ⟨l[j], ?_, rfl, rfl, fun _ h => h⟩
      refine mem_of_getElem? (i := j) ?_
      rw [getElem?_set_ne hjk, getElem?_eq_getElem hj]

/-- The actions that can touch a log, an `AppendEntries` request or the list of entries. -/
def Action.writesLog : Action N C → Bool
  | .sendAppend .. | .appendHandle .. | .installEnd .. | .compactEnd .. => true
  | .submit .. | .propose .. | .forwardHandle .. | .submitFail .. => true
  | _ => false

section Quiet

variable {a : Action N C} (ha : a.writesLog = false)
include ha

theorem Section.logPart {n : N} {x : Node N C B} (h : Section cfg s a n x) :
    x.logPart = (s.node n).logPart := by
  cases h with
  | appendEntries | finishInstall | finishCompact | rollback => cases ha
  | publish _ _ hpub => cases a <;> first | (cases ha; done) | cases hpub
  | requestVote => exact logPart_handleRequestVote ..
  | voteReply | chunkReply => exact logPart_observeTerm ..
  | appendReply => exact logPart_appendEntriesReply ..
  | chunk => exact logPart_handleInstallSnapshot ..
  | commit => exact logPart_updateCommitIndex ..
  | campaign | elected | rename | snapshotSent | saveSnapshot | persist | apply => rfl

/-- The calls after a step that writes no log: at most one is in another phase. -/
theorem submits_quiet (h : step cfg cb s a = some s') :
    s'.submits = s.submits ∨ ∃ (k : Nat) (c : SubmitCall N C) (phase : SubmitPhase C),
      s.submits[k]? = some c ∧ (∀ r, c.phase ≠ .rolledBack r) ∧
        s'.submits = s.submits.set k { c with phase := phase } := by
  rcases submits_step h with hsame | ⟨hpub, _, _⟩ | ⟨hk, hm, hset⟩
  · exact .inl hsame
  · cases a <;> first | (cases ha; done) | cases hpub
  · exact .inr ⟨_, _, _, hk, hm.not_rolledBack, hset⟩

theorem logQuiet_step (h : step cfg cb s a = some s') : LogQuiet s s' where
  node := (step_node h).relate (R := fun _ x y => y.logPart = x.logPart) (fun _ => rfl)
    fun _ _ => Section.logPart ha
  submits := by
    rcases submits_quiet ha h with hsame | ⟨k, c, phase, hk, hphase, hset⟩
    · exact fun c hc => ⟨c, hsame ▸ hc, rfl, rfl⟩
    · rw [hset]
      exact (submits_set hk hphase).1
  keeps := by
    rcases submits_quiet ha h with hsame | ⟨k, c, phase, hk, hphase, hset⟩
    · exact fun c hc => ⟨c, hsame ▸ hc, rfl, rfl, fun _ h => h⟩
    · rw [hset]
      exact (submits_set hk hphase).2

end Quiet

/-! ## The invariant -/

/-- The entries of a request follow the one before it. -/
def Numbered (s : Cluster N C B S) : Prop :=
  ∀ c ∈ s.appends, ∀ k e, c.req.entries[k]? = some e → e.index = c.req.prevLogIndex + k + 1

/-- A snapshot being installed does not end below the node's own. -/
def Above (node : N → Node N C B) (s : Cluster N C B S) : Prop :=
  ∀ n j L, s.snapMu n = some j → j.installs = some L → (node n).snapshotIndex ≤ L

/-- The layout of logs and requests. -/
structure LayoutInv (s : Cluster N C B S) : Prop where
  indexed : ∀ n, (s.node n).Indexed
  boundary : ∀ n, (s.node n).snapshotIndex = (s.node n).logOffset
  jobs : Above s.node s
  msgs : Numbered s

omit [DecidableEq N] in
theorem layoutInv_init (cb : Callbacks C B S) : LayoutInv (Cluster.init cb : Cluster N C B S) where
  indexed := fun _ k e he => by simp [Cluster.init, newNode] at he
  boundary := fun _ => rfl
  jobs := nofun
  msgs := nofun

omit [DecidableEq N] in
theorem indexed_of_logPart {y : Node N C B} (h : y.logPart = x.logPart) (hx : x.Indexed) :
    y.Indexed ∧ y.snapshotIndex = x.snapshotIndex ∧ y.logOffset = x.logOffset ∧
      y.log = x.log ∧ y.snapshotTerm = x.snapshotTerm := by
  simp only [Node.logPart, Prod.mk.injEq] at h
  obtain ⟨hlog, hoff, hidx, hterm⟩ := h
  refine ⟨?_, hidx, hoff, hlog, hterm⟩
  unfold Node.Indexed
  rw [hlog, hoff]
  exact hx

/-- What is being installed after a step lies above the snapshot of before. -/
theorem LayoutInv.above (h : LayoutInv s) {a : Action N C} (hs : step cfg cb s a = some s') :
    Above s.node s' := by
  intro n j L hj hL
  cases jobs_step hs n j hj with
  | compacts hnone =>
    rw [hL] at hnone
    cases hnone
  | same hj₀ hL₀ => exact h.jobs n _ L hj₀ (hL₀ ▸ hL)
  | install hL' _ _ _ hle =>
    cases hL.symm.trans hL'
    exact hle

omit [DecidableEq N] in
theorem LayoutInv.quiet (h : LayoutInv s) (hjobs : Above s.node s') (hmsgs : Numbered s')
    (hq : LogQuiet s s') : LayoutInv s' := by
  have hpart := fun n => indexed_of_logPart (hq.node n) (h.indexed n)
  refine ⟨fun n => (hpart n).1, fun n => ?_, fun n j L hj hL => ?_, hmsgs⟩
  · rw [(hpart n).2.1, (hpart n).2.2.1]
    exact h.boundary n
  · rw [(hpart n).2.1]
    exact hjobs n j L hj hL

/-- One node gets a new log. -/
theorem LayoutInv.of_node (h : LayoutInv s) (hnode : s'.node = update s.node n x) (hx : x.Indexed)
    (hb : x.snapshotIndex = x.logOffset)
    (hsnap : ∀ j, s'.snapMu n = some j → x.snapshotIndex = (s.node n).snapshotIndex)
    (hjobs : Above s.node s') (hmsgs : Numbered s') : LayoutInv s' := by
  refine ⟨?_, ?_, fun m j L hj hL => ?_, hmsgs⟩
  · rw [hnode]
    exact (forall_update_iff _ fun _ (y : Node N C B) => y.Indexed).2 ⟨hx, fun m _ => h.indexed m⟩
  · rw [hnode]
    exact (forall_update_iff _ fun _ (y : Node N C B) => y.snapshotIndex = y.logOffset).2
      ⟨hb, fun m _ => h.boundary m⟩
  · have hle := hjobs m j L hj hL
    rw [hnode]
    by_cases hm : m = n
    · subst hm
      rw [update_self, hsnap j hj]
      exact hle
    · rw [update_of_ne hm]
      exact hle

section

omit [DecidableEq N]

theorem Node.Indexed.pushEntry (hx : x.Indexed) {entry : LogEntry C}
    (he : entry.index = x.logLen + 1) : (x.pushEntry entry).Indexed :=
  (Taken.indexed (.extend (Nat.lt_succ_self x.logLen)) hx le_rfl he).1

theorem submitRollback_eq (x : Node N C B) (entry : LogEntry C) (len : Nat) :
    (x.rolledBackEntry entry len = none ∧ submitRollback x entry len = x) ∨
    ∃ last, x.rolledBackEntry entry len = some last ∧ x.log.getLast? = some last ∧
      submitRollback x entry len = x.setLog x.log.dropLast := by
  unfold Node.rolledBackEntry submitRollback
  split_ifs with h
  · cases hl : x.log.getLast? with
    | none => simp [Node.rollsBack, hl] at h
    | some last => exact .inr ⟨last, rfl, rfl, rfl⟩
  · exact .inl ⟨rfl, rfl⟩

theorem Node.Indexed.dropLast (hx : x.Indexed) :
    (x.setLog x.log.dropLast).Indexed := by
  intro k e he
  have he' : x.log.dropLast[k]? = some e := he
  rw [getElem?_dropLast] at he'
  split_ifs at he'
  exact hx k e he'

end

theorem LayoutInv.submit (h : LayoutInv s) {command : C} {origin : Option Nat}
    (hs : s.submit n command origin = some s') : LayoutInv s' := by
  obtain ⟨_, rfl⟩ := submit_some hs
  exact h.of_node rfl ((h.indexed n).pushEntry rfl) (h.boundary n)
    (fun _ _ => rfl) h.jobs h.msgs

omit [DecidableEq N] in
theorem LayoutInv.forwards (h : LayoutInv s) (hf : OnlyForwards s s') : LayoutInv s' := by
  obtain ⟨f, rfl⟩ := hf
  exact ⟨h.indexed, h.boundary, h.jobs, h.msgs⟩

/-- A request carries entries of the leader's log, in order. -/
theorem LayoutInv.numbered (h : LayoutInv s) {a : Action N C} (hs : step cfg cb s a = some s') :
    Numbered s' := by
  intro c' hc' k e he
  obtain ⟨c, hc, _, rfl⟩ | ⟨_, n, _, _, _, _, _, hreq, rfl⟩ := requests_step hs hc'
  · exact h.msgs c hc k e he
  · obtain ⟨_, _, hprev, _, _, hentries⟩ := appendEntriesSnapshot_spec hreq
    obtain ⟨hlt, hlog⟩ := hentries k e he
    have := h.indexed n _ e hlog
    simp only [hprev]
    omega

/-- **Every step keeps the layout.** -/
theorem LayoutInv.step (h : LayoutInv s) {a : Action N C} (hs : step cfg cb s a = some s') :
    LayoutInv s' := by
  have hjobs := h.above hs
  have hmsgs := h.numbered hs
  cases ha : a.writesLog with
  | false => exact h.quiet hjobs hmsgs (logQuiet_step ha hs)
  | true =>
    cases a with
    | sendAppend i =>
      obtain rfl | ⟨_, _, _, _, _, _, rfl⟩ := sendAppend_some hs <;>
        exact ⟨h.indexed, h.boundary, h.jobs, hmsgs⟩
    | appendHandle i io =>
      obtain ⟨sender, peer, nextIdx, req, x, r, hi, hx, rfl⟩ := appendHandle_some hs
      obtain ⟨hidx, hoff, hsnap, _, _⟩ := handleAppendEntries_indexed cfg peer (s.clock peer) io
        (s.node peer) req (h.indexed peer) (le_of_eq (h.boundary peer))
        (h.msgs _ (mem_of_getElem? hi)) hx
      exact h.of_node rfl hidx (by rw [hoff, hsnap]; exact h.boundary peer)
        (fun _ _ => hsnap) hjobs hmsgs
    | installEnd n walOk =>
      obtain ⟨i, index, term, data, wal, hj, rfl⟩ := installEnd_some hs
      have hle := h.jobs n _ index hj rfl
      have hb := h.boundary n
      refine h.of_node rfl (finishInstall_indexed (h.indexed n) index term) ?_ ?_ hjobs hmsgs
      · show index = max (s.node n).logOffset index
        omega
      · intro j hj'
        simp [Cluster.answerChunk, Cluster.setNode] at hj'
    | compactEnd n walOk =>
      obtain ⟨idx, term, wal, hj, rfl⟩ := compactEnd_some hs
      have hb := h.boundary n
      refine h.of_node rfl (compactFinish_indexed (h.indexed n) hb idx term) ?_ ?_ hjobs hmsgs
      · show (compactFinish (s.node n) idx term).snapshotIndex =
          (compactFinish (s.node n) idx term).logOffset
        rcases lt_or_ge (s.node n).snapshotIndex idx with hlt | hge
        · obtain ⟨_, h1, h2, _⟩ := compactFinish_log hb hlt term
          rw [h1, h2]
        · unfold compactFinish
          rw [if_pos hge]
          exact hb
      · intro j hj'
        simp [Cluster.setSnapMu, Cluster.setNode] at hj'
    | submit n command => exact h.submit hs
    | propose n command =>
      obtain hs | hf := propose_some hs
      · exact h.submit hs
      · exact h.forwards hf
    | forwardHandle i =>
      obtain ⟨t, _, _, _, _, ht, hs⟩ | hf := forwardHandle_some hs
      · exact (h.forwards ht).submit hs
      · exact h.forwards hf
    | submitFail k =>
      obtain ⟨c, f, hk, _, rfl⟩ := submitFail_some hs
      obtain ⟨_, hx⟩ | ⟨last, _, _, hx⟩ :=
        submitRollback_eq (s.node c.self) c.entry c.publishedLen
      · rw [hx]
        exact h.of_node rfl (h.indexed _) (h.boundary _)
          (fun _ _ => rfl) hjobs hmsgs
      · rw [hx]
        exact h.of_node rfl (h.indexed _).dropLast (h.boundary _)
          (fun _ _ => rfl) hjobs hmsgs
    | _ => cases ha

end

end MxKeys.Raft
