/-
# MxKeys.Raft.Counting — who counts for an entry when the commit index moves.

`updateCommitIndex` is called in two places: when a response to `AppendEntries` comes in, and by
`Submit` after its persist.  The first looks at the node's state and term under the same lock; the
second does not.  `counted_replicas` says that this is all that can go wrong: if every `Submit`
counts as a leader, then whenever a round of the loop moves the commit index, the entry is one that
the node made itself in its current term, and every peer it counts has had that very entry in that
term.

"Has had" is about the past of the run, so the theorem is about traces: runs with the states they go
through.
-/
import MxKeys.Raft.Acknowledge
import MxKeys.Raft.Identity
import MxKeys.Raft.Sections

namespace MxKeys.Raft

open MxKeys.Lib MxKeys.Consensus
open List Option Function

variable {N C B S : Type*} [Fintype N] [DecidableEq N] {cfg : Config N} {cb : Callbacks C B S}
  {s s' : Cluster N C B S} {a : Action N C} {g g' : History N (LogEntry C)} {n : N} {x : Node N C B}

/-! ## Counting -/

/-- The bookkeeping of `sendAppendEntries` for a request that succeeded. -/
def Node.recordMatch (x : Node N C B) (peer : N) (nextIdx len : Nat) : Node N C B :=
  { x with
    nextIndex := update x.nextIndex peer (nextIdx + len)
    matchIndex := update x.matchIndex peer (nextIdx + len - 1) }

/-- `Counts s a n x`: the action runs `updateCommitIndex` on node `n`, which is `x` at that point.
-/
inductive Counts (s : Cluster N C B S) : Action N C → N → Node N C B → Prop
  | submit {k : Nat} {c : SubmitCall N C} (hk : s.submits[k]? = some c)
      (hphase : c.phase = .persisted) : Counts s (.submitCommit k) c.self (s.node c.self)
  | reply {i : Nat} {sender peer : N} {nextIdx : Nat} {req : AppendEntriesRequest N C}
      {r : AppendEntriesResponse}
      (hi : s.appends[i]? = some ⟨sender, peer, nextIdx, req, .answered r⟩)
      (hterm : ¬(s.node sender).currentTerm < r.term)
      (hlead : (s.node sender).state = .leader) (hsame : (s.node sender).currentTerm = req.term)
      (hnext : (s.node sender).nextIndex peer = nextIdx) (hok : r.success = true) :
      Counts s (.appendReply i) sender ((s.node sender).recordMatch peer nextIdx req.entries.length)

/-- The round for index `i` moves the commit index. -/
def Raises (cfg : Config N) (n : N) (x : Node N C B) (i : Nat) : Prop :=
  x.commitIndex < i ∧ i ≤ x.logLen ∧ (x.commitRound cfg n i).commitIndex = i

variable {i : Nat} {r : AppendEntriesResponse}

omit [Fintype N] [DecidableEq N] in
theorem Raises.termAt (h : Raises cfg n x i) : x.termAt i = some x.currentTerm := by
  rcases commitRound_eq cfg n x i with ⟨heq, _⟩ | ⟨_, hterm, _⟩
  · have := h.2.2
    rw [heq] at this
    exact absurd this (ne_of_lt h.1)
  · exact hterm

/-! ## Runs of Submit, elections and AppendEntries -/

/-- Everything but snapshots: no compaction, and no transfer or installation of a snapshot. -/
def Action.replicates : Action N C → Bool
  | .loadSnapshot _ | .sampleTerm _ | .chunkHandle _ _ | .runInstaller _ | .renameSnapshot _ _
  | .installEnd _ _ | .chunkReply _ | .snapshotDone _ => false
  | .compactStart _ | .compactCheck _ | .compactSave _ _ | .compactEnd _ _ => false
  | _ => true

/-- No snapshots, no failing writes, and `Submit` counts as a leader. -/
def CountsAsLeader (s : Cluster N C B S) (a : Action N C) : Prop :=
  a.replicates = true ∧ Steady s a

omit [Fintype N] [DecidableEq N] in
theorem Unfailed.freshSlot (h : Unfailed s) : FreshSlot s a := by
  rintro n command - - e ⟨d, hd, -, hp⟩
  exact absurd hp ((h d hd).2 _)

omit [Fintype N] in
theorem Section.logOffset_eq (h : Section cfg s a n x) (ha : a.replicates = true) :
    x.logOffset = (s.node n).logOffset := by
  have hpart : x.logPart = (s.node n).logPart → x.logOffset = (s.node n).logOffset :=
    fun heq => congrArg (fun p => p.2.1) heq
  cases h with
  | requestVote => exact hpart (logPart_handleRequestVote _ _ _)
  | voteReply => exact hpart (logPart_observeTerm _ _)
  | appendEntries =>
    rcases handleAppendEntries_eq cfg n (s.clock n) _ (s.node n) _ with h | ⟨_, _, _, h⟩ <;> rw [h]
    rfl
  | appendReply => exact hpart (logPart_appendEntriesReply _ _ _ _ _ _ _)
  | commit => exact hpart (logPart_updateCommitIndex _ _ _)
  | rollback =>
    unfold submitRollback
    split_ifs <;> rfl
  | chunk | rename | finishInstall | chunkReply | snapshotSent | saveSnapshot | finishCompact =>
    cases ha
  | campaign | elected | publish | persist | apply => rfl

/-- The `matchIndex` of a leader after a section: fresh, as it was, or just raised by a response of
its term. -/
inductive MatchStep (cfg : Config N) (s : Cluster N C B S) (n : N) (x : Node N C B) : Prop
  | fresh (hm : ∀ p ∈ cfg.peers n, x.matchIndex p = 0)
  | same (hlead : (s.node n).state = .leader) (hterm : x.currentTerm = (s.node n).currentTerm)
      (hm : x.matchIndex = (s.node n).matchIndex)
  | reply (hlead : (s.node n).state = .leader) (hterm : x.currentTerm = (s.node n).currentTerm)
      {i : Nat} {peer : N} {nextIdx : Nat} {req : AppendEntriesRequest N C}
      {r : AppendEntriesResponse} (hi : s.appends[i]? = some ⟨n, peer, nextIdx, req, .answered r⟩)
      (hok : r.success = true) (hreq : (s.node n).currentTerm = req.term)
      (hm : x.matchIndex = update (s.node n).matchIndex peer
        (nextIdx + req.entries.length - 1))

omit [Fintype N] [DecidableEq N] in
theorem matchIndex_observeTerm (x : Node N C B) (t : Nat) :
    (x.observeTerm t).matchIndex = x.matchIndex :=
  (congrArg Node.matchIndex (restands_observeTerm x t) :)

omit [Fintype N] in
theorem Section.matchStep (h : Section cfg s a n x) (ha : a.replicates = true)
    (hl : x.state = .leader) : MatchStep cfg s n x := by
  -- sections that do not make a leader and leave the table alone
  have hkeep : x.state = .follower ∨
      (x.state = (s.node n).state ∧ x.currentTerm = (s.node n).currentTerm) →
      x.matchIndex = (s.node n).matchIndex → MatchStep cfg s n x := by
    rintro (hf | ⟨hst, hterm⟩) hm
    · rw [hf] at hl
      cases hl
    · exact .same (hst ▸ hl) hterm hm
  cases h with
  | elected => exact .fresh fun p hp => by simp [becomeLeader, hp]
  | campaign => cases hl
  | requestVote =>
    exact hkeep (state_handleRequestVote ..)
      (congrArg Node.matchIndex (restands_handleRequestVote (s.clock n) (s.node n) _) :)
  | voteReply => exact hkeep (drift_observeTerm _ _).state (matchIndex_observeTerm _ _)
  | @appendEntries _ io _ _ _ req =>
    refine hkeep (drift_handleAppendEntries _ _ _ _ _ _).state ?_
    rcases handleAppendEntries_eq cfg n (s.clock n) io (s.node n) req with h | ⟨_, _, _, h⟩ <;>
      rw [h]
    rfl
  | @appendReply _ _ peer nextIdx req r hi =>
    have hst := (drift_appendEntriesReply cfg n (s.node n) peer req nextIdx r).state
    unfold appendEntriesReply at hl hkeep hst ⊢
    split_ifs at hl hkeep hst ⊢ with hterm hskip hok hnext
    · exact hkeep hst (matchIndex_observeTerm _ _)
    · exact hkeep hst rfl
    · obtain ⟨c, hc, _⟩ := updateCommitIndex_eq cfg n
        ((s.node n).recordMatch peer nextIdx req.entries.length)
      simp only [not_or, not_not] at hskip
      show MatchStep cfg s n
        (((s.node n).recordMatch peer nextIdx req.entries.length).updateCommitIndex cfg n)
      rw [hc]
      exact .reply hskip.1 rfl hi hok hskip.2.1 rfl
    · exact hkeep hst rfl
    · exact hkeep hst rfl
  | @commit _ d =>
    obtain ⟨c, hc, _⟩ := updateCommitIndex_eq cfg d.self (s.node d.self)
    rw [hc] at hkeep ⊢
    exact hkeep (.inr ⟨rfl, rfl⟩) rfl
  | rollback =>
    unfold submitRollback at hkeep ⊢
    split_ifs at hkeep ⊢ <;> exact hkeep (.inr ⟨rfl, rfl⟩) rfl
  | chunk | rename | finishInstall | chunkReply | snapshotSent | saveSnapshot | finishCompact =>
    cases ha
  | publish | persist | apply => exact hkeep (.inr ⟨rfl, rfl⟩) rfl

/-! ## What replicas have held -/

/-- Among the states `ts` there is one in which `p` is in term `T` and holds `e` at index `i`. -/
def Held (ts : List (Cluster N C B S)) (p : N) (T i : Nat) (e : LogEntry C) : Prop :=
  ∃ u ∈ ts, (u.node p).currentTerm = T ∧ (u.node p).entryAt i = some e

/-- While in term `T`, `p` has held each of the first `c` entries of the leader of `T`. -/
def HeldTo (g : History N (LogEntry C)) (ts : List (Cluster N C B S)) (p : N) (T c : Nat) : Prop :=
  c ≤ (g.hist T).length ∧ ∀ j e, j < c → (g.hist T)[j]? = some e → Held ts p T (j + 1) e

variable {ts : List (Cluster N C B S)} {p : N} {T c : Nat}

omit [Fintype N] [DecidableEq N] in
theorem HeldTo.next (h : HeldTo g ts p T c) (ev : Evolves g g') (u : Cluster N C B S) :
    HeldTo g' (u :: ts) p T c := by
  refine ⟨h.1.trans (ev.hist T).length_le, fun j e hj he => ?_⟩
  rw [ev.agree h.1 j hj] at he
  obtain ⟨v, hv, hheld⟩ := h.2 j e hj he
  exact ⟨v, mem_cons_of_mem _ hv, hheld⟩

omit [Fintype N] [DecidableEq N] in
theorem HeldTo.le {c' : Nat} (h : HeldTo g ts p T c) (hc : c' ≤ c) : HeldTo g ts p T c' :=
  ⟨hc.trans h.1, fun j e hj => h.2 j e (lt_of_lt_of_le hj hc)⟩

/-- A successful response comes from a peer that has held what it acknowledges. -/
def AnswerHeld (g : History N (LogEntry C)) (ts : List (Cluster N C B S)) (c : AppendCall N C) :
    Prop :=
  ∀ r, c.phase = .answered r → r.success = true →
    HeldTo g ts c.peer c.req.term (c.req.prevLogIndex + c.req.entries.length)

omit [Fintype N] [DecidableEq N] in
theorem AnswerHeld.next {c : AppendCall N C} (h : AnswerHeld g ts c) (ev : Evolves g g')
    (u : Cluster N C B S) : AnswerHeld g' (u :: ts) c :=
  fun r hr hok => (h r hr hok).next ev u

/-- What the states of a run back: responses and the `matchIndex` of leaders. -/
structure Traced (cfg : Config N) (g : History N (LogEntry C)) (ts : List (Cluster N C B S))
    (t : Cluster N C B S) : Prop where
  refines : Refines cfg g t
  /-- Nothing is compacted away. -/
  flat : ∀ n, (t.node n).logOffset = 0
  answers : ∀ c ∈ t.appends, AnswerHeld g ts c
  matched : ∀ n, (t.node n).state = .leader → ∀ p ∈ cfg.peers n,
    HeldTo g ts p (t.node n).currentTerm ((t.node n).matchIndex p)

variable {ts : List (Cluster N C B S)} {t u : Cluster N C B S}

/-- The peer that has just handled a request holds what it acknowledges. -/
theorem answerHeld_handled {c : AppendCall N C} (hsim : Sim cfg g u)
    (hflat : (u.node c.peer).logOffset = 0) (hc : { c with phase := .answered r } ∈ u.appends)
    (hheld : r.success = true → (u.node c.peer).currentTerm = c.req.term ∧
      Agree (g.full c.peer) (g.hist c.req.term) (c.req.prevLogIndex + c.req.entries.length)) :
    AnswerHeld g (u :: ts) { c with phase := .answered r } := by
  rintro r' ⟨⟩ hok
  obtain ⟨hterm, hag⟩ := hheld hok
  refine ⟨((hsim.items.appends _ hc).reply r rfl hok).1, fun j e hj he => ?_⟩
  refine ⟨u, mem_cons_self, hterm, ?_⟩
  rw [(hsim.node c.peer).entryAt_eq (by omega), Nat.add_sub_cancel, hag j hj]
  exact he

/-- The responses after a step. -/
theorem Traced.answers_step (h : Traced cfg g ts t) (hflat : ∀ n, (u.node n).logOffset = 0)
    (hun : Unfailed t) (hl : CommitsAsLeader t a) (hs : step cfg cb t a = some u) :
    ∃ g', Evolves g g' ∧ Refines cfg g' u ∧ ∀ c ∈ u.appends, AnswerHeld g' (u :: ts) c := by
  have hold : ∀ {g'}, Evolves g g' → ∀ c ∈ t.appends, AnswerHeld g' (u :: ts) c :=
    fun ev c hc => (h.answers c hc).next ev u
  cases ha : a.exchanges with
  | false =>
    obtain ⟨g', ev, hsim⟩ := h.refines.step hun.keepsEntry hl hs
    refine ⟨g', ev, hsim, ?_⟩
    rw [(step_node hs).appends ha]
    exact hold ev
  | true =>
    cases a with
    | sendAppend i =>
      obtain ⟨g', ev, hsim⟩ := h.refines.step hun.keepsEntry hl hs
      refine ⟨g', ev, hsim, ?_⟩
      obtain rfl | ⟨_, _, _, _, _, _, rfl⟩ := sendAppend_some hs
      · exact hold ev
      · exact forall_mem_concat (hold ev) nofun
    | appendHandle i io =>
      obtain ⟨c, hi⟩ : ∃ c, t.appends[i]? = some c := by
        obtain ⟨_, _, _, _, _, _, hi, _, _⟩ := appendHandle_some hs
        exact ⟨_, hi⟩
      obtain ⟨r, g', ev, hsim, happ, hheld⟩ := h.refines.sim.appendHandle_holds hi hs
      refine ⟨g', ev, ⟨hsim, h.refines.layout.step hs, h.refines.election.step hs⟩, ?_⟩
      have hmem : { c with phase := .answered r } ∈ u.appends := by
        rw [happ]
        exact mem_of_getElem? (getElem?_set_self (lt_length_of_getElem? hi))
      rw [happ]
      exact forall_mem_set (hold ev) (answerHeld_handled hsim (hflat _) hmem hheld) i
    | appendReply i =>
      obtain ⟨g', ev, hsim⟩ := h.refines.step hun.keepsEntry hl hs
      refine ⟨g', ev, hsim, ?_⟩
      obtain ⟨_, _, _, _, _, _, rfl⟩ := appendReply_some hs
      exact forall_mem_set (hold ev) (fun r hr => by cases hr) i
    | _ => cases ha

/-- A response of the leader's term raises an entry of its table to what the peer has held. -/
theorem Traced.recorded (h : Traced cfg g ts t) (hlead : (t.node n).state = .leader) {peer : N}
    {nextIdx : Nat} {req : AppendEntriesRequest N C}
    (hi : t.appends[i]? = some ⟨n, peer, nextIdx, req, .answered r⟩) (hok : r.success = true)
    (hreq : (t.node n).currentTerm = req.term) (hp : p ∈ cfg.peers n) :
    HeldTo g ts p (t.node n).currentTerm
      (update (t.node n).matchIndex peer (nextIdx + req.entries.length - 1) p) := by
  by_cases hpp : p = peer
  · subst hpp
    have hmem := mem_of_getElem? hi
    have hnext : req.prevLogIndex = nextIdx - 1 := (h.refines.sim.items.appends _ hmem).next
    rw [update_self, hreq]
    exact (h.answers _ hmem r rfl hok).le (by dsimp only; omega)
  · rw [update_of_ne hpp]
    exact h.matched n hlead p hp

/-- The `matchIndex` of a leader after a section. -/
theorem Traced.matched_section (h : Traced cfg g ts t) (hm : MatchStep cfg t n x)
    (hp : p ∈ cfg.peers n) : HeldTo g ts p x.currentTerm (x.matchIndex p) := by
  cases hm with
  | fresh hm =>
    rw [hm p hp]
    exact ⟨Nat.zero_le _, fun j e hj => absurd hj (Nat.not_lt_zero j)⟩
  | same hlead hterm hm =>
    rw [hm, hterm]
    exact h.matched n hlead p hp
  | reply hlead hterm hi hok hreq hm =>
    rw [hm, hterm]
    exact h.recorded hlead hi hok hreq hp

theorem Traced.step (h : Traced cfg g ts t) (hun : Unfailed t) (hok : CountsAsLeader t a)
    (hs : step cfg cb t a = some u) : ∃ g', Traced cfg g' (u :: ts) u := by
  obtain ⟨ha, hio, hl⟩ := hok
  have hflat : ∀ n, (u.node n).logOffset = 0 :=
    (step_node hs).relate (R := fun _ _ y => y.logOffset = 0) h.flat
      fun n x hx => (hx.logOffset_eq ha).trans (h.flat n)
  obtain ⟨g', ev, hsim, hans⟩ := h.answers_step hflat hun hl hs
  refine ⟨g', hsim, hflat, hans, fun n => ?_⟩
  refine (step_node hs).relate (R := fun n _ y => y.state = .leader → ∀ p ∈ cfg.peers n,
    HeldTo g' (u :: ts) p y.currentTerm (y.matchIndex p)) ?_ ?_ n
  · intro n hlead p hp
    exact (h.matched n hlead p hp).next ev u
  · intro n x hx hlead p hp
    exact (h.matched_section (hx.matchStep ha hlead) hp).next ev u

theorem traced_init (cfg : Config N) (cb : Callbacks C B S) :
    ∃ g, Traced cfg g [Cluster.init cb] (Cluster.init cb : Cluster N C B S) :=
  ⟨_, refines_init cfg cb, fun _ => rfl, nofun, nofun⟩

/-- What holds at the end of every trace. -/
theorem traced_reach (h : Trace (MxKeys.Raft.step cfg cb) CountsAsLeader (Cluster.init cb) ts t) :
    (∃ g, Traced cfg g ts t) ∧ IdentityInv t ∧ Unfailed t := by
  refine h.invariant (P := fun ts t => (∃ g, Traced cfg g ts t) ∧ IdentityInv t ∧ Unfailed t)
    ⟨traced_init cfg cb, identityInv_init cb, unfailed_init cb⟩ ?_
  rintro ts t a u ⟨⟨g, hg⟩, hid, hun⟩ hok hu
  exact ⟨hg.step hun hok hu, hid.step hg.refines.layout hg.refines.election hun.freshSlot hu,
    hun.step hok.2.1 hu⟩

/-! ## The result -/

omit [Fintype N] in
theorem Counts.leader (h : Counts t a n x) (hl : CommitsAsLeader t a) : x.state = .leader := by
  cases h with
  | submit hk hphase => exact hl _ hk
  | reply hi hterm hlead hsame hnext hok => exact hlead

omit [Fintype N] in
/-- The node that counts is the node of the state, up to the table it counts with. -/
theorem Counts.same (h : Counts t a n x) : x.state = (t.node n).state ∧
    x.currentTerm = (t.node n).currentTerm ∧ (∀ i, x.termAt i = (t.node n).termAt i) ∧
    ∀ i, x.entryAt i = (t.node n).entryAt i := by
  cases h <;> exact ⟨rfl, rfl, fun _ => rfl, fun _ => rfl⟩

/-- The table is backed by what the peers have held. -/
theorem Traced.counts (h : Traced cfg g ts t) (hc : Counts t a n x) (hl : x.state = .leader)
    (hp : p ∈ cfg.peers n) : HeldTo g ts p x.currentTerm (x.matchIndex p) := by
  cases hc with
  | submit hk hphase => exact h.matched _ hl p hp
  | reply hi hterm hlead hsame hnext hok => exact h.recorded hlead hi hok hsame hp

/-- **Only the current leader counts replicas.**  In every run of elections, `Submit` and
`AppendEntries` with writes that succeed, in which `Submit` counts as a leader: whenever a round of
`updateCommitIndex` moves the commit index to `i`, the node is the leader, the entry at `i` is one
that a `Submit` on this node made in this term, and every peer counted has held that entry at `i`
while in this term, now or before. -/
theorem counted_replicas (h : Trace (MxKeys.Raft.step cfg cb) CountsAsLeader (Cluster.init cb) ts t)
    (hok : CountsAsLeader t a) (hc : Counts t a n x) {i : Nat} (hr : Raises cfg n x i) :
    x.state = .leader ∧ ∃ e, x.entryAt i = some e ∧ e.term = x.currentTerm ∧
      (∃ c ∈ t.submits, c.self = n ∧ c.entry = e) ∧
      ∀ p ∈ cfg.peers n, i ≤ x.matchIndex p → Held ts p x.currentTerm i e := by
  obtain ⟨⟨g, hg⟩, hid, _⟩ := traced_reach h
  have he := hg.refines.election
  have hlead := hc.leader hok.2.2
  obtain ⟨hstate, hterm, htermAt, hentryAt⟩ := hc.same
  have hl : (t.node n).state = .leader := hstate ▸ hlead
  have hpos : 0 < i := Nat.lt_of_le_of_lt (Nat.zero_le _) hr.1
  -- nothing is compacted, so the entry is in memory
  have hat := hr.termAt
  rw [htermAt, hterm] at hat
  obtain ⟨e, hentry, het⟩ : ∃ e, (t.node n).entryAt i = some e ∧
      e.term = (t.node n).currentTerm := by
    rcases termAt_some hpos hat with ⟨hsnap, _⟩ | ⟨e, hentry, het⟩
    · have hbound := hg.refines.layout.boundary n
      rw [hg.flat n] at hbound
      omega
    · exact ⟨e, hentry, het⟩
  -- the leader of the term has published it
  have hmade : ∃ c ∈ t.submits, c.self = n ∧ c.entry = e := by
    obtain ⟨_, _, hslot⟩ := entryAt_some hentry
    obtain ⟨c, hmem, rfl⟩ := hid.log n e (mem_of_getElem? hslot)
    have hwon := hid.by_leader c hmem
    rw [het] at hwon
    exact ⟨c, hmem, he.unique hwon (he.leads n hl), rfl⟩
  refine ⟨hlead, e, (hentryAt i).trans hentry, het.trans hterm.symm, hmade, fun p hp hle => ?_⟩
  have hslot : (g.hist (t.node n).currentTerm)[i - 1]? = some e := by
    rw [← ((hg.refines.sim.node n).leads hg.refines.sim.sound hl).2]
    exact ((hg.refines.sim.node n).entryAt_full hentry).2
  rw [← hterm] at hslot
  have hheld := (hg.counts hc hlead hp).2 (i - 1) e (by omega) hslot
  rwa [Nat.sub_add_cancel hpos] at hheld

instance (cfg : Config N) (n : N) (x : Node N C B) (i : Nat) : Decidable (Raises cfg n x i) :=
  inferInstanceAs (Decidable (_ ∧ _ ∧ _))

/-- Node `a` is elected and replicates the command `7` to node `b`, whose response is on its way. -/
def answeredSchedule (a b c : N) : List (Action N Nat) :=
  electionSchedule [a, b, c] 1 a [0] [2] ++ [.submit a 7, .submitPersist 0 true, .submitCommit 0,
    .sendStart a b, .sendAppend 0, .appendHandle 0 .ok]

/-- The response of node `1` lets node `0` commit its entry, which node `1` has held in term `1`. -/
theorem counted_replicas_reply :
    ∃ ts, ∃ t : Cluster (Fin 3) Nat Nat Unit,
      Trace (step (.complete 3 1) .stateless) CountsAsLeader (Cluster.init .stateless) ts t ∧
      Raises (.complete 3 1) 0 ((t.node 0).recordMatch 1 1 1) 1 ∧ Held ts 1 1 1 ⟨1, 1, 7⟩ := by
  have hrun : (execute (step (.complete 3 1) .stateless) commitsAsLeader
      (Cluster.init .stateless : Cluster (Fin 3) Nat Nat Unit) (answeredSchedule 0 1 2)).map
      (fun t => (t.appends[0]?, (t.node 0).state, (t.node 0).currentTerm, (t.node 0).nextIndex 1,
        (t.node 0).entryAt 1, decide (Raises (.complete 3 1) 0 ((t.node 0).recordMatch 1 1 1) 1))) =
      some (some ⟨0, 1, 1, ⟨1, 0, some 0, 0, 0, [⟨1, 1, 7⟩], 0⟩, .answered ⟨1, true⟩⟩,
        .leader, 1, 1, some ⟨1, 1, 7⟩, true) := by
    rfl
  obtain ⟨t, ht, hobs⟩ := reach_observe (P := fun a => a.replicates = true ∧ a.ioOk = true)
    (by decide +kernel)
    (fun s a ha hb => (⟨ha.1, steady_of_checked ha.2 hb⟩ : CountsAsLeader s a)) hrun
  obtain ⟨ts, hts⟩ := ht.trace
  simp only [Prod.mk.injEq, decide_eq_true_eq] at hobs
  obtain ⟨hi, hlead, hterm, hnext, hentry, hraises⟩ := hobs
  have hcounts : Counts t (.appendReply 0) 0 ((t.node 0).recordMatch 1 1 1) :=
    .reply hi (by rw [hterm]; decide) hlead hterm hnext rfl
  obtain ⟨_, e, he, _, _, hheld⟩ :=
    counted_replicas hts (a := .appendReply 0) ⟨rfl, rfl, trivial⟩ hcounts hraises
  obtain rfl : (⟨1, 1, 7⟩ : LogEntry Nat) = e := some.inj (hentry.symm.trans he)
  refine ⟨ts, t, hts, hraises, ?_⟩
  have := hheld 1 (by decide) (by simp [Node.recordMatch])
  rwa [show ((t.node 0).recordMatch 1 1 1).currentTerm = 1 from hterm] at this

/-- The `updateCommitIndex` of the call `k`. -/
def Action.countsFor (k : Nat) : Action N C → Bool
  | .submitCommit j => j == k
  | _ => false

def SubmitPhase.isPersisted : SubmitPhase C → Bool
  | .persisted => true
  | _ => false

theorem SubmitPhase.eq_persisted {p : SubmitPhase C} (h : p.isPersisted = true) :
    p = .persisted := by
  cases p with
  | persisted => rfl
  | _ => cases h

/-- **A deposed leader counts.**  The run of `deposedSchedule` up to the return of the `Submit` of
term `1`: node `0` is a follower of term `4`, the entry it takes for committed is node `2`'s, and
the responses it counts were for what it had in term `3`. -/
theorem follower_counts :
    ∃ ts, ∃ t : Cluster (Fin 5) Nat Nat Unit,
      Trace (step (.complete 5 1) .stateless) (fun _ a => a.replicates = true ∧ a.ioOk = true)
        (Cluster.init .stateless) ts t ∧
      Counts t (.submitCommit 1) 0 (t.node 0) ∧ Raises (.complete 5 1) 0 (t.node 0) 2 ∧
      (t.node 0).state = .follower ∧ (t.node 0).entryAt 2 = some ⟨2, 4, 12⟩ := by
  have hrun : (execute (step (.complete 5 1) .stateless) (fun _ _ => true)
      (Cluster.init .stateless : Cluster (Fin 5) Nat Nat Unit)
      (deposedSchedule.takeWhile fun a => !a.countsFor 1)).map
      (fun t => ((t.submits[1]?).map (fun c => (c.self, c.phase.isPersisted)),
        (t.node 0).state, (t.node 0).entryAt 2, decide (Raises (.complete 5 1) 0 (t.node 0) 2))) =
      some (some (0, true), .follower, some ⟨2, 4, 12⟩, true) := by
    decide +kernel
  obtain ⟨t, ht, hobs⟩ := reach_observe (P := fun a => a.replicates = true ∧ a.ioOk = true)
    (by decide +kernel) (fun _ _ ha _ => ha) hrun
  obtain ⟨ts, hts⟩ := ht.trace
  simp only [Prod.mk.injEq, decide_eq_true_eq] at hobs
  obtain ⟨hcall, hstate, hentry, hraises⟩ := hobs
  obtain ⟨c, hk, hc⟩ := map_eq_some_iff.1 hcall
  obtain ⟨hself, hphase⟩ := Prod.mk.inj hc
  refine ⟨ts, t, hts, ?_, hraises, hstate, hentry⟩
  rw [← hself]
  exact .submit hk (SubmitPhase.eq_persisted hphase)

end MxKeys.Raft
