/-
# MxKeys.Raft.Simulation — the cluster refines the abstract protocol.

`Sim g s` ties a state of the cluster to a history of the protocol: every node is a replica of it,
and every message under way, every snapshot job, every published entry and every applied entry is
backed by it.  `Sim.step` is the simulation: each action of the cluster is matched by events of the
protocol, as long as no `Submit` advances the commit index of a node that is not the leader any more
(`CommitsAsLeader`) or takes an entry off its log after a failed write (`KeepsEntry`).

What the items say never depends on the state of a node, only on the history, so one lemma carries
all of them from one history to the next.
-/
import MxKeys.Raft.Accept
import MxKeys.Raft.Layout

namespace MxKeys.Raft

open MxKeys.Lib MxKeys.Consensus
open List Option Function

variable {N C B S : Type*}

/-! ## The conditions -/

/-- All writes of the action succeed. -/
def Action.ioOk : Action N C → Bool
  | .appendHandle _ io => io = .ok
  | .chunkHandle _ io => io = .ok
  | .renameSnapshot _ ok | .installEnd _ ok | .compactSave _ ok | .compactEnd _ ok
  | .submitPersist _ ok => ok
  | _ => true

/-- `Submit` runs its `updateCommitIndex` on a node that is the leader. -/
def CommitsAsLeader (s : Cluster N C B S) : Action N C → Prop
  | .submitCommit k => ∀ c, s.submits[k]? = some c → (s.node c.self).state = .leader
  | _ => True

/-- A `Submit` whose persist has failed finds that the log has moved on, and takes nothing off it.
The history of a leader only grows, so taking off an entry, even one that was never sent, is no step
of the algorithm. -/
def KeepsEntry (s : Cluster N C B S) : Action N C → Prop
  | .submitFail k => ∀ c, s.submits[k]? = some c → c.phase = .failed →
      (s.node c.self).rollsBack c.entry c.publishedLen = false
  | _ => True

/-! ## What backs the items of a state -/

section

variable [Fintype N] [DecidableEq N]

section Items

variable (g : History N (LogEntry C))

/-- A vote request describes the campaign it belongs to. -/
def VoteSim (c : VoteCall N) : Prop :=
  c.pre = false → c.req.candidateId = c.sender ∧
    ∃ R b, g.camp c.sender c.req.term = some (R, b) ∧ c.req.lastLogIndex = R.length ∧
      c.req.lastLogTerm = lastTerm R

/-- A request comes from its term's leader, and a success means a match. -/
structure AppendSim (c : AppendCall N C) : Prop where
  leader : g.leader c.req.term = some c.sender
  next : c.req.prevLogIndex = c.nextIdx - 1
  req : RequestSim g c.req
  reply : ∀ r, c.phase = .answered r → r.success = true →
    Matched g c.peer c.req.term (c.req.prevLogIndex + c.req.entries.length)

/-- A snapshot on its way ends in a boundary. -/
structure SnapSim (c : SnapCall N B) : Prop where
  term_le : c.term ≤ g.termOf c.sender
  snap : Boundary g (g.termOf c.sender) c.snap.lastIncludedIndex c.snap.lastIncludedTerm
  sent : c.phase ≠ .loaded →
    Boundary g c.term c.snap.lastIncludedIndex c.snap.lastIncludedTerm

/-- A snapshot being installed or saved ends in a boundary. -/
def JobSim (n : N) : SnapJob B → Prop
  | .install _ x t _ | .installed _ x t _ | .renamed _ x t _ => Boundary g (g.settled n) x t
  | .provided _ _ => True
  | .validated _ x t | .saved x t => Known g n x ∧ Boundary g (g.termOf n) x t

/-- The entry of a `Submit` has its place in the log of its term. -/
structure SubmitSim (c : SubmitCall N C) : Prop where
  leader : g.leader c.entry.term = some c.self
  index : 1 ≤ c.entry.index
  slot : (g.hist c.entry.term)[c.entry.index - 1]? = some c.entry

/-- An entry is committed, at its index. -/
def CommittedEntry (e : LogEntry C) : Prop :=
  1 ≤ e.index ∧ CommittedAt g (e.index - 1) e

/-- Whatever is on its way agrees with the history. -/
structure ItemSim (s : Cluster N C B S) : Prop where
  votes : ∀ c ∈ s.votes, VoteSim g c
  appends : ∀ c ∈ s.appends, AppendSim g c
  snaps : ∀ c ∈ s.snaps, SnapSim g c
  jobs : ∀ n j, s.snapMu n = some j → JobSim g n j
  calls : ∀ n j, s.snapMu n = some j → ∀ i, j.call = some i →
    ∃ c, s.snaps[i]? = some c ∧ c.phase ≠ .loaded
  submits : ∀ c ∈ s.submits, SubmitSim g c
  applying : ∀ n e, s.applying n = some e → CommittedEntry g e
  applied : ∀ p ∈ s.applied, CommittedEntry g p.2
  cast : ∀ v T c, (v, T, c) ∈ s.votesCast → g.vote v T = some c

end Items

/-- The cluster is a state of the protocol with history `g`. -/
structure Sim (cfg : Config N) (g : History N (LogEntry C)) (s : Cluster N C B S) : Prop where
  sound : Sound g
  node : ∀ n, NodeSim cfg g n (s.node n)
  items : ItemSim g s

variable {cfg : Config N} {cb : Callbacks C B S} {g g' : History N (LogEntry C)}
  {s s' : Cluster N C B S} {n : N}

/-! ## Transport -/

omit [Fintype N] [DecidableEq N] in
theorem VoteSim.evolve {c : VoteCall N} (hc : VoteSim g c) (ev : Evolves g g') : VoteSim g' c := by
  intro hpre
  obtain ⟨hid, R, b, hcamp, hlen, hterm⟩ := hc hpre
  exact ⟨hid, R, b, ev.camp _ _ _ hcamp, hlen, hterm⟩

theorem AppendSim.evolve {c : AppendCall N C} (hc : AppendSim g c) (h : Inv g)
    (ev : Evolves g g') : AppendSim g' c where
  leader := ev.leader _ _ hc.leader
  next := hc.next
  req := hc.req.evolve h ev
  reply := fun r hr hs => ev.matched (hc.reply r hr hs)

omit [Fintype N] [DecidableEq N] in
theorem SnapSim.evolve {c : SnapCall N B} (hc : SnapSim g c) (ev : Evolves g g') :
    SnapSim g' c where
  term_le := le_trans hc.term_le (ev.termOf _)
  snap := (ev.boundary hc.snap).mono (ev.termOf _)
  sent := fun hp => ev.boundary (hc.sent hp)

variable {j : SnapJob B} {i k : Nat} {ok : Bool}

omit [Fintype N] [DecidableEq N] in
theorem JobSim.evolve (hj : JobSim g n j) (ev : Evolves g g') : JobSim g' n j := by
  cases j with
  | install _ _ _ _ | installed _ _ _ _ | renamed _ _ _ _ =>
    exact (ev.boundary hj).mono (ev.settled n)
  | provided _ _ => trivial
  | validated _ _ _ | saved _ _ => exact ⟨ev.known hj.1, (ev.boundary hj.2).mono (ev.termOf n)⟩

variable {c : SubmitCall N C} {α : Type*} {io : AppendIo} {walOk : Bool}

omit [Fintype N] [DecidableEq N] in
theorem SubmitSim.evolve (hc : SubmitSim g c) (ev : Evolves g g') :
    SubmitSim g' c where
  leader := ev.leader _ _ hc.leader
  index := hc.index
  slot := getElem?_of_isPrefix (ev.hist _) hc.slot

omit [Fintype N] [DecidableEq N] in
theorem CommittedEntry.evolve {e : LogEntry C} (he : CommittedEntry g e) (ev : Evolves g g') :
    CommittedEntry g' e :=
  ⟨he.1, ev.committedAt he.2⟩

/-- **No event takes anything back** of what the items rest on. -/
theorem ItemSim.evolve (hi : ItemSim g s) (h : Inv g) (ev : Evolves g g') : ItemSim g' s where
  votes := fun c hc => (hi.votes c hc).evolve ev
  appends := fun c hc => (hi.appends c hc).evolve h ev
  snaps := fun c hc => (hi.snaps c hc).evolve ev
  jobs := fun n j hj => (hi.jobs n j hj).evolve ev
  calls := hi.calls
  submits := fun c hc => (hi.submits c hc).evolve ev
  applying := fun n e he => (hi.applying n e he).evolve ev
  applied := fun p hp => (hi.applied p hp).evolve ev
  cast := fun v T c hc => ev.vote v T c (hi.cast v T c hc)

/-! ## Assembling a step -/

/-- Every history the next state can have. -/
def Sim.Next (cfg : Config N) (g : History N (LogEntry C)) (s' : Cluster N C B S) : Prop :=
  ∃ g', Evolves g g' ∧ Sim cfg g' s'

variable {x : Node N C B}

/-- Events at one node. -/
theorem Sim.moved (h : Sim cfg g s) (hm : Moves g g' n) (hx : NodeSim cfg g' n x)
    (hnode : s'.node = update s.node n x) (hitems : ItemSim g' s') : Sim cfg g' s' := by
  refine ⟨hm.sound, ?_, hitems⟩
  rw [hnode, forall_update_iff _ fun m y => NodeSim cfg g' m y]
  exact ⟨hx, fun m hmn => (h.node m).evolve hm.ev (hm.others m hmn)⟩

theorem Sim.move (h : Sim cfg g s) (hm : Moves g g' n) (hx : NodeSim cfg g' n x)
    (hnode : s'.node = update s.node n x) (hitems : ItemSim g' s') :
    Sim.Next cfg g s' :=
  ⟨g', hm.ev, h.moved hm hx hnode hitems⟩

/-- No event, but a node may change in what the protocol does not see. -/
theorem Sim.touch (h : Sim cfg g s) (hx : NodeSim cfg g n x)
    (hnode : s'.node = update s.node n x) (hitems : ItemSim g s') : Sim.Next cfg g s' :=
  h.move (.refl h.sound n) hx hnode hitems

theorem Sim.stay (h : Sim cfg g s) (hnode : s'.node = s.node) (hitems : ItemSim g s') :
    Sim.Next cfg g s' :=
  ⟨g, .refl g, h.sound, fun m => by rw [hnode]; exact h.node m, hitems⟩

theorem forall_mem_set {P : α → Prop} {l : List α} (h : ∀ a ∈ l, P a) {b : α} (hb : P b) (i : Nat) :
    ∀ a ∈ l.set i b, P a := by
  intro a ha
  rcases mem_or_eq_of_mem_set ha with ha | rfl
  · exact h a ha
  · exact hb

theorem forall_mem_concat {P : α → Prop} {l : List α} (h : ∀ a ∈ l, P a) {b : α} (hb : P b) :
    ∀ a ∈ l ++ [b], P a := by
  intro a ha
  rcases mem_append.1 ha with ha | ha
  · exact h a ha
  · rw [mem_singleton.1 ha]
    exact hb

variable {o : Option (SnapJob B)}

omit [Fintype N] in
/-- The holder of `snapMu` on one node changes. -/
theorem jobs_update {P : N → SnapJob B → Prop} {f : N → Option (SnapJob B)}
    (h : ∀ m j, f m = some j → P m j) (ho : ∀ j, o = some j → P n j) :
    ∀ m j, update f n o m = some j → P m j :=
  (forall_update_iff _ fun m v => ∀ j, v = some j → P m j).2 ⟨ho, fun m _ => h m⟩

omit [Fintype N] [DecidableEq N] in
/-- A call that has left the first phase keeps it left when another is replaced. -/
theorem call_set {l : List (SnapCall N B)} {d : SnapCall N B}
    (h : ∃ c, l[i]? = some c ∧ c.phase ≠ .loaded) (hd : d.phase ≠ .loaded) :
    ∃ c, (l.set k d)[i]? = some c ∧ c.phase ≠ .loaded := by
  obtain ⟨c, hc, hp⟩ := h
  by_cases hik : k = i
  · subst hik
    exact ⟨d, getElem?_set_self (List.getElem?_eq_some_iff.1 hc).1, hd⟩
  · exact ⟨c, by rw [getElem?_set_ne hik]; exact hc, hp⟩

/-! ## Elections -/

theorem Sim.campaign (h : Sim cfg g s) (hs : s.campaign cfg n = some s') : Sim.Next cfg g s' := by
  obtain ⟨_, rfl⟩ := campaign_some hs
  obtain ⟨hm, hx⟩ := (h.node n).startElection h.sound (s.clock n)
  have hterm := (h.node n).term
  have hi := h.items.evolve h.sound.inv hm.ev
  refine h.move hm hx rfl { hi with votes := ?_, cast := ?_ }
  · intro c hc
    rcases mem_append.1 hc with hc | hc
    · exact hi.votes c hc
    · obtain ⟨p, _, rfl⟩ := List.mem_map.1 hc
      -- the requests carry the log that the campaign starts from
      refine fun _ => ⟨rfl, g.full n, g.base n, ?_, ?_, ?_⟩
      · show (g.campaign n).camp n ((s.node n).currentTerm + 1) = _
        rw [← hterm]
        exact set2_same _ _ _ _
      · simp [Node.voteRequest, (h.node n).lastLogIndexTerm_eq h.sound]
      · simp [Node.voteRequest, (h.node n).lastLogIndexTerm_eq h.sound]
  · intro v T c hc
    rcases mem_cons.1 hc with heq | hc
    · cases heq
      rw [← hterm]
      exact set2_same _ _ _ _
    · exact hi.cast v T c hc

theorem Sim.voteHandle (h : Sim cfg g s) (hs : s.voteHandle cfg i = some s') :
    Sim.Next cfg g s' := by
  obtain ⟨sender, peer, req, r, hi, rfl⟩ | ⟨sender, peer, req, x, r, hi, hx, rfl⟩ :=
    voteHandle_some hs
  · exact h.stay rfl { h.items with
      votes := forall_mem_set h.items.votes (fun hpre => by cases hpre) i }
  · have hmsg := h.items.votes _ (mem_of_getElem? hi)
    obtain ⟨hid, R, b, hcamp, hlen, hlast⟩ := hmsg rfl
    obtain ⟨g', hm, hx', hvote⟩ := (h.node peer).handleRequestVote h.sound
      (hid ▸ hcamp) hlen hlast hx
    have hi' := h.items.evolve h.sound.inv hm.ev
    refine h.move hm hx' rfl { hi' with votes := ?_, cast := ?_ }
    · have hmsg' := hi'.votes _ (mem_of_getElem? hi)
      exact forall_mem_set (b := ⟨sender, peer, false, req, .answered r⟩) hi'.votes hmsg' i
    · intro v T c hc
      split_ifs at hc with hg
      · rcases mem_cons.1 hc with heq | hc
        · cases heq
          exact hvote hg
        · exact hi'.cast v T c hc
      · exact hi'.cast v T c hc

theorem Sim.voteReply (h : Sim cfg g s) (hs : s.voteReply i = some s') :
    Sim.Next cfg g s' := by
  obtain ⟨sender, peer, req, r, granted, hi, rfl⟩ | ⟨sender, peer, req, r, granted, hi, _, rfl⟩ :=
    voteReply_some hs
  · exact h.stay rfl { h.items with
      votes := forall_mem_set h.items.votes (fun hpre => by cases hpre) i }
  · obtain ⟨g', hm, hx⟩ := (h.node sender).observeTerm h.sound r.term
    have hi' := h.items.evolve h.sound.inv hm.ev
    have hmsg' := hi'.votes _ (mem_of_getElem? hi)
    exact h.move hm hx rfl { hi' with
      votes := forall_mem_set (b := ⟨sender, peer, false, req, .finished⟩) hi'.votes hmsg' i }

theorem Sim.finishBallot (h : Sim cfg g s) (he : ElectionInv s)
    (hs : s.finishBallot cfg n = some s') : Sim.Next cfg g s' := by
  obtain rfl | rfl | ⟨b, hb, hn, hcand, hterm, rfl⟩ := finishBallot_some hs
  · exact h.stay rfl { h.items with }
  · exact h.stay rfl { h.items with }
  · obtain ⟨Q, hQ, hvotes⟩ := (he.ballots n b hb).majority hn
    obtain ⟨hm, hx⟩ := (h.node n).becomeLeader h.sound hcand hQ
      (fun v hv => by rw [hterm]; exact h.items.cast v _ n (hvotes v hv))
    exact h.move hm hx rfl { h.items.evolve h.sound.inv hm.ev with }

/-! ## Replication -/

theorem Sim.sendAppend (h : Sim cfg g s) (hs : s.sendAppend cfg i = some s') :
    Sim.Next cfg g s' := by
  obtain rfl | ⟨n, peer, req, nextIdx, _, hreq, rfl⟩ := sendAppend_some hs
  · exact h.stay rfl { h.items with }
  · obtain ⟨hlead, hnext, hreq⟩ := (h.node n).requestSim h.sound hreq
    exact h.stay rfl { h.items with
      appends := forall_mem_concat h.items.appends ⟨hlead, hnext, hreq, nofun⟩ }

/-- Handling a request, with what a success says: the peer is in the leader's term and holds the
leader's log up to the last entry of the request. -/
theorem Sim.appendHandle_holds (h : Sim cfg g s) {c : AppendCall N C} (hi : s.appends[i]? = some c)
    (hs : s.appendHandle cfg i io = some s') :
    ∃ r g', Evolves g g' ∧ Sim cfg g' s' ∧
      s'.appends = s.appends.set i { c with phase := .answered r } ∧
        (r.success = true → (s'.node c.peer).currentTerm = c.req.term ∧
        Agree (g'.full c.peer) (g'.hist c.req.term)
          (c.req.prevLogIndex + c.req.entries.length)) := by
  obtain ⟨sender, peer, nextIdx, req, x, r, hi', hx, rfl⟩ := appendHandle_some hs
  obtain rfl : c = _ := some.inj (hi.symm.trans hi')
  have hmsg := h.items.appends _ (mem_of_getElem? hi)
  obtain ⟨g', hm, hx', hack⟩ := (h.node peer).handleAppendEntries h.sound hmsg.req hx
  have hitems := h.items.evolve h.sound.inv hm.ev
  have hmsg' := hmsg.evolve h.sound.inv hm.ev
  have hcall : AppendSim g' ⟨sender, peer, nextIdx, req, .answered r⟩ := by
    refine ⟨hmsg'.leader, hmsg'.next, hmsg'.req, fun r' hr' hok => ?_⟩
    obtain rfl : r = r' := by cases hr'; rfl
    exact (hack hok).1
  refine ⟨r, g', hm.ev, h.moved hm hx' rfl { hitems with
    appends := forall_mem_set hitems.appends hcall i }, rfl, fun hok => ?_⟩
  dsimp only
  rw [update_self]
  exact (hack hok).2

theorem Sim.appendHandle (h : Sim cfg g s) (hs : s.appendHandle cfg i io = some s') :
    Sim.Next cfg g s' := by
  obtain ⟨_, _, _, _, _, _, hi, _, _⟩ := appendHandle_some hs
  obtain ⟨_, g', ev, hsim, _⟩ := h.appendHandle_holds hi hs
  exact ⟨g', ev, hsim⟩

theorem Sim.appendReply (h : Sim cfg g s) (hs : s.appendReply cfg i = some s') :
    Sim.Next cfg g s' := by
  obtain ⟨sender, peer, nextIdx, req, r, hi, rfl⟩ := appendReply_some hs
  have hmsg := h.items.appends _ (mem_of_getElem? hi)
  have hack : r.success = true →
      Matched g peer req.term (req.prevLogIndex + req.entries.length) := hmsg.reply r rfl
  obtain ⟨g', hm, hx⟩ := (h.node sender).appendEntriesReply h.sound hmsg.next hack
  have hi' := h.items.evolve h.sound.inv hm.ev
  have hmsg' := hmsg.evolve h.sound.inv hm.ev
  refine h.move hm hx rfl { hi' with appends := forall_mem_set hi'.appends ?_ i }
  exact ⟨hmsg'.leader, hmsg'.next, hmsg'.req, fun r' hr' => by cases hr'⟩

/-! ## Installing snapshots -/

theorem Sim.loadSnapshot (h : Sim cfg g s) (hs : s.loadSnapshot cfg i = some s') :
    Sim.Next cfg g s' := by
  obtain rfl | ⟨n, peer, snap, _, hfile, rfl⟩ := loadSnapshot_some hs
  · exact h.stay rfl { h.items with }
  · have hb := (h.node n).file snap hfile
    rw [← (h.node n).term] at hb
    refine h.stay rfl { h.items with snaps := ?_, calls := ?_ }
    · exact forall_mem_concat h.items.snaps ⟨Nat.zero_le _, hb, fun hp => absurd rfl hp⟩
    · intro m j hj k hk
      obtain ⟨c, hc, hp⟩ := h.items.calls m j hj k hk
      exact ⟨c, by rw [getElem?_append_left (lt_length_of_getElem? hc)]; exact hc, hp⟩

theorem Sim.sampleTerm (h : Sim cfg g s) (hs : s.sampleTerm i = some s') :
    Sim.Next cfg g s' := by
  obtain ⟨n, peer, snap, term, offset, hi, rfl⟩ := sampleTerm_some hs
  have hmsg := h.items.snaps _ (mem_of_getElem? hi)
  have hterm := (h.node n).term
  refine h.stay rfl { h.items with snaps := ?_, calls := ?_ }
  · refine forall_mem_set h.items.snaps ⟨le_of_eq hterm.symm, ?_, fun _ => ?_⟩ i
    · exact hmsg.snap
    · show Boundary g (s.node n).currentTerm _ _
      rw [← hterm]
      exact hmsg.snap
  · exact fun m j hj k hk => call_set (h.items.calls m j hj k hk) nofun

theorem Sim.chunkHandle (h : Sim cfg g s) {io : ChunkIo} (hs : s.chunkHandle cfg i io = some s') :
    Sim.Next cfg g s' := by
  obtain ⟨n, peer, snap, term, offset, x, out, hi, _, hx, hout⟩ := chunkHandle_some hs
  have hmsg := h.items.snaps _ (mem_of_getElem? hi)
  obtain ⟨g', hm, hx', hinst⟩ := (h.node peer).handleInstallSnapshot h.sound hx
  have hi' := h.items.evolve h.sound.inv hm.ev
  have hmsg' := hmsg.evolve hm.ev
  have hsent := hmsg'.sent nofun
  obtain ⟨r, _, rfl⟩ | ⟨data, hdata, rfl⟩ := hout
  · refine h.move hm hx' rfl { hi' with
      snaps := forall_mem_set hi'.snaps ?_ i
      calls := fun m j hj k hk => call_set (hi'.calls m j hj k hk) nofun }
    exact ⟨hmsg'.term_le, hmsg'.snap, fun _ => hsent⟩
  · refine h.move hm hx' rfl { hi' with
      snaps := forall_mem_set hi'.snaps ?_ i
      jobs := jobs_update hi'.jobs ?_
      calls := jobs_update (fun m j hj k hk => call_set (hi'.calls m j hj k hk)
        nofun) ?_ }
    · exact ⟨hmsg'.term_le, hmsg'.snap, fun _ => hsent⟩
    · rintro j ⟨⟩
      exact hsent.mono (hinst data hdata)
    · rintro j ⟨⟩ k hk
      obtain rfl : i = k := some.inj hk
      exact ⟨_, getElem?_set_self (lt_length_of_getElem? hi), nofun⟩

omit [Fintype N] in
/-- The holder of `snapMu` answers and lets go. -/
theorem ItemSim.answerChunk (hi : ItemSim g s) (hj : s.snapMu n = some j) (hcall : j.call = some i)
    (r : InstallSnapshotResponse) : ItemSim g (s.answerChunk n i r) := by
  obtain ⟨c, hc, hp⟩ := hi.calls n j hj i hcall
  have hsnap := hi.snaps c (mem_of_getElem? hc)
  have heq : s.answerChunk n i r = { s with
      snapMu := update s.snapMu n none
      snaps := s.snaps.set i { c with phase := .answered r } } := by
    rw [Cluster.answerChunk, hc]
  rw [heq]
  exact { hi with
    snaps := forall_mem_set (b := { c with phase := .answered r }) hi.snaps
      ⟨hsnap.term_le, hsnap.snap, fun _ => hsnap.sent hp⟩ i
    jobs := jobs_update hi.jobs fun _ hj => by cases hj
    calls := jobs_update (fun m j hj k hk => call_set (hi.calls m j hj k hk)
      fun hp => by cases hp) fun _ hj => by cases hj }

omit [Fintype N] in
/-- The holder of `snapMu` goes on to its next section, with the same call. -/
theorem ItemSim.nextJob (hi : ItemSim g s) {j' : SnapJob B} (hj : s.snapMu n = some j)
    (hcall : j'.call = j.call) (hj' : JobSim g n j') :
    ItemSim g (s.setSnapMu n (some j')) := by
  refine { hi with jobs := jobs_update hi.jobs ?_, calls := jobs_update hi.calls ?_ }
  · rintro _ ⟨⟩
    exact hj'
  · rintro _ ⟨⟩ i hi'
    exact hi.calls n j hj i (hcall ▸ hi')

theorem Sim.runInstaller (h : Sim cfg g s) (hs : s.runInstaller cb n = some s') :
    Sim.Next cfg g s' := by
  obtain ⟨i, index, term, data, hj, ⟨a, _, rfl⟩ | rfl⟩ := runInstaller_some hs
  · have hjob : Boundary g (g.settled n) index term := h.items.jobs n _ hj
    have hi : ItemSim g (s.setSnapMu n (some (.installed i index term data))) :=
      h.items.nextJob hj rfl hjob
    exact h.stay rfl { hi with }
  · exact h.stay rfl (h.items.answerChunk hj rfl _)

theorem Sim.renameSnapshot (h : Sim cfg g s) (hs : s.renameSnapshot cfg n ok = some s') :
    Sim.Next cfg g s' := by
  obtain ⟨i, index, term, data, hj, ⟨file, hfile, rfl⟩ | rfl⟩ := renameSnapshot_some hs
  · have hjob : Boundary g (g.settled n) index term := h.items.jobs n _ hj
    have hi : ItemSim g (s.setSnapMu n (some (.renamed i index term data))) :=
      h.items.nextJob hj rfl hjob
    have hx := h.node n
    refine h.touch (x := (s.node n).setSnapshotFile file) ⟨hx.term, hx.role, hx.base, hx.log,
      hx.boundary, hx.snapTerm, hx.voted, hx.commit, hx.matched, ?_⟩ rfl { hi with }
    intro snap hsnap
    have hsnap' : file = some snap := hsnap
    rcases hfile with hf | hf
    · rw [hf] at hsnap'
      cases hsnap'
      exact hjob.mono (le_trans (g.settled_le n) hx.term.le)
    · exact hx.file snap (hf ▸ hsnap')
  · exact h.stay rfl (h.items.answerChunk hj rfl _)

theorem Sim.installEnd (h : Sim cfg g s) (hlay : LayoutInv s)
    (hs : s.installEnd n walOk = some s') :
    Sim.Next cfg g s' := by
  obtain ⟨i, index, term, data, wal, hj, rfl⟩ := installEnd_some hs
  have habove := hlay.jobs n _ index hj rfl
  rw [hlay.boundary n] at habove
  obtain ⟨g', hm, hx⟩ := (h.node n).finishInstall h.sound (h.items.jobs n _ hj) habove
  have hi' := (h.items.evolve h.sound.inv hm.ev).answerChunk hj rfl
    ⟨(s.node n).currentTerm, true, data.length⟩
  exact h.move hm (x := (finishInstall (s.node n) index term).setWal wal)
    ⟨hx.term, hx.role, hx.base, hx.log, hx.boundary, hx.snapTerm, hx.voted, hx.commit, hx.matched,
      hx.file⟩ rfl { hi' with }

theorem Sim.chunkReply (h : Sim cfg g s) (hs : s.chunkReply i = some s') :
    Sim.Next cfg g s' := by
  obtain ⟨n, peer, snap, term, offset, r, c, hi, hc, rfl⟩ := chunkReply_some hs
  have hmsg := h.items.snaps _ (mem_of_getElem? hi)
  obtain ⟨g', hm, hx⟩ := (h.node n).observeTerm h.sound r.term
  have hi' := h.items.evolve h.sound.inv hm.ev
  have hmsg' := hmsg.evolve hm.ev
  have hsent := hmsg'.sent nofun
  have hc' : SnapSim g' c ∧ c.phase ≠ .loaded := by
    rcases hc with rfl | ⟨_, _, rfl⟩ | rfl <;>
      exact ⟨⟨hmsg'.term_le, hmsg'.snap, fun _ => hsent⟩, nofun⟩
  exact h.move hm hx rfl { hi' with
    snaps := forall_mem_set hi'.snaps hc'.1 i
    calls := fun m j hj k hk => call_set (hi'.calls m j hj k hk) hc'.2 }

theorem Sim.snapshotDone (h : Sim cfg g s) (hs : s.snapshotDone i = some s') :
    Sim.Next cfg g s' := by
  obtain ⟨n, peer, snap, term, offset, hi, rfl⟩ := snapshotDone_some hs
  have hmsg := h.items.snaps _ (mem_of_getElem? hi)
  refine h.touch ((h.node n).snapshotSent h.sound peer hmsg.snap) rfl { h.items with
    snaps := forall_mem_set h.items.snaps ?_ i
    calls := fun m j hj k hk => call_set (h.items.calls m j hj k hk) nofun }
  exact ⟨hmsg.term_le, hmsg.snap, fun _ => hmsg.sent nofun⟩

/-! ## Compaction -/

omit [Fintype N] in
/-- The holder of `snapMu` is replaced by one that works for no call, or by none. -/
theorem ItemSim.ownJob (hi : ItemSim g s) (ho : ∀ j, o = some j → j.call = none ∧ JobSim g n j) :
    ItemSim g (s.setSnapMu n o) := by
  refine { hi with jobs := jobs_update hi.jobs fun j hj => (ho j hj).2,
                   calls := jobs_update hi.calls ?_ }
  intro j hj i hcall
  rw [(ho j hj).1] at hcall
  cases hcall

theorem Sim.compactStart (h : Sim cfg g s) (hs : s.compactStart cfg cb n = some s') :
    Sim.Next cfg g s' := by
  obtain ⟨_, rfl⟩ := compactStart_some hs
  refine h.stay rfl (h.items.ownJob ?_)
  rintro _ ⟨⟩
  exact ⟨rfl, trivial⟩

theorem Sim.compactCheck (h : Sim cfg g s) (hs : s.compactCheck n = some s') :
    Sim.Next cfg g s' := by
  obtain ⟨data, appliedIdx, _, rfl⟩ := compactCheck_some hs
  refine h.stay rfl (h.items.ownJob ?_)
  intro j hj
  obtain ⟨t, ht, rfl⟩ := map_eq_some_iff.1 hj
  exact ⟨rfl, (h.node n).compactValidate h.sound ht⟩

theorem Sim.compactSave (h : Sim cfg g s) (hs : s.compactSave n ok = some s') :
    Sim.Next cfg g s' := by
  obtain ⟨data, appliedIdx, t, hj, rfl | rfl⟩ := compactSave_some hs
  · have hjob : Known g n appliedIdx ∧ Boundary g (g.termOf n) appliedIdx t := h.items.jobs n _ hj
    have hi : ItemSim g (s.setSnapMu n (some (.saved appliedIdx t))) := by
      refine h.items.ownJob ?_
      rintro _ ⟨⟩
      exact ⟨rfl, hjob⟩
    have hx := h.node n
    refine h.touch (x := (s.node n).setSnapshotFile (some ⟨appliedIdx, t, data⟩)) ⟨hx.term, hx.role,
      hx.base, hx.log, hx.boundary, hx.snapTerm, hx.voted, hx.commit, hx.matched, ?_⟩ rfl
      { hi with }
    rintro snap ⟨⟩
    exact hjob.2.mono hx.term.le
  · exact h.stay rfl (h.items.ownJob fun j hj => by cases hj)

theorem Sim.compactEnd (h : Sim cfg g s) (hs : s.compactEnd n walOk = some s') :
    Sim.Next cfg g s' := by
  obtain ⟨appliedIdx, t, wal, hj, rfl⟩ := compactEnd_some hs
  have hjob : Known g n appliedIdx ∧ Boundary g (g.termOf n) appliedIdx t := h.items.jobs n _ hj
  obtain ⟨g', hm, hx⟩ := (h.node n).compactFinish h.sound hjob.1 hjob.2
  have hi : ItemSim g' (s.setSnapMu n none) :=
    (h.items.evolve h.sound.inv hm.ev).ownJob nofun
  exact h.move hm (x := (compactFinish (s.node n) appliedIdx t).setWal wal)
    ⟨hx.term, hx.role, hx.base, hx.log, hx.boundary, hx.snapTerm, hx.voted, hx.commit, hx.matched,
      hx.file⟩ rfl { hi with }

/-! ## Submit and Propose -/

theorem Sim.submit (h : Sim cfg g s) {command : C} {origin : Option Nat}
    (hs : s.submit n command origin = some s') : Sim.Next cfg g s' := by
  obtain ⟨hl, rfl⟩ := submit_some hs
  obtain ⟨g', hm, hx, hlead, hslot⟩ := (h.node n).pushEntry h.sound hl command
  have hi := h.items.evolve h.sound.inv hm.ev
  refine h.move hm hx rfl { hi with submits := forall_mem_concat hi.submits ?_ }
  exact ⟨hlead, Nat.le_add_left _ _, hslot⟩

theorem Sim.forwards (h : Sim cfg g s) (hf : OnlyForwards s s') : Sim cfg g s' := by
  obtain ⟨f, rfl⟩ := hf
  exact ⟨h.sound, h.node, { h.items with }⟩

omit [Fintype N] [DecidableEq N] in
/-- A `Submit` goes on to another phase. -/
theorem ItemSim.setSubmit (hi : ItemSim g s) (hk : s.submits[k]? = some c) (phase : SubmitPhase C) :
    ∀ d ∈ s.submits.set k { c with phase := phase }, SubmitSim g d := by
  have hc := hi.submits c (mem_of_getElem? hk)
  refine forall_mem_set hi.submits ?_ k
  exact ⟨hc.leader, hc.index, hc.slot⟩

theorem Sim.submitPersist (h : Sim cfg g s) (hs : s.submitPersist cfg k ok = some s') :
    Sim.Next cfg g s' := by
  obtain ⟨c, f, hk, _, ⟨_, rfl⟩ | ⟨_, rfl⟩⟩ := submitPersist_some hs
  · have hx := h.node c.self
    exact h.touch (x := (s.node c.self).persistEntry c.entry) ⟨hx.term, hx.role, hx.base, hx.log,
      hx.boundary, hx.snapTerm, hx.voted, hx.commit, hx.matched, hx.file⟩ rfl { h.items with
        submits := h.items.setSubmit hk _ }
  · exact h.stay rfl { h.items with submits := h.items.setSubmit hk _ }

theorem Sim.submitFail (h : Sim cfg g s) (hk : KeepsEntry s (.submitFail k))
    (hs : s.submitFail k = some s') : Sim.Next cfg g s' := by
  obtain ⟨c, f, hc, hphase, rfl⟩ := submitFail_some hs
  have hsame : submitRollback (s.node c.self) c.entry c.publishedLen = s.node c.self := by
    simp [submitRollback, hk c hc hphase]
  refine h.touch (x := s.node c.self) (h.node c.self) ?_ { h.items with
    submits := h.items.setSubmit hc _ }
  show update s.node c.self (submitRollback _ _ _) = _
  rw [hsame]

theorem Sim.submitCommit (h : Sim cfg g s)
    (hl : ∀ c, s.submits[k]? = some c → (s.node c.self).state = .leader)
    (hs : s.submitCommit cfg k = some s') : Sim.Next cfg g s' := by
  obtain ⟨c, f, hk, _, rfl⟩ := submitCommit_some hs
  obtain ⟨g', hm, hx⟩ := (h.node c.self).updateCommitIndex h.sound (hl c hk)
  have hi := h.items.evolve h.sound.inv hm.ev
  refine h.move hm hx rfl { hi with submits := ?_ }
  exact hi.setSubmit hk _

/-! ## Applying -/

theorem Sim.applyTake (h : Sim cfg g s) (hs : s.applyTake n = some s') : Sim.Next cfg g s' := by
  obtain ⟨_, hlt, rfl⟩ := applyTake_some hs
  have hx := h.node n
  refine h.touch (x := (s.node n).bumpApplied) ⟨hx.term, hx.role, hx.base, hx.log, hx.boundary,
    hx.snapTerm, hx.voted, hx.commit, hx.matched, hx.file⟩ rfl { h.items with applying := ?_ }
  intro m e he
  by_cases hm : m = n
  · subst hm
    simp only [update_self] at he
    obtain ⟨hidx, hc⟩ := hx.committedAt_entryAt h.sound hlt he
    refine ⟨by omega, ?_⟩
    rw [hidx, Nat.add_sub_cancel]
    exact hc
  · simp only [update_of_ne hm] at he
    exact h.items.applying m e he

theorem Sim.applyRun (h : Sim cfg g s) (hs : s.applyRun cb n = some s') : Sim.Next cfg g s' := by
  obtain ⟨entry, he, rfl⟩ := applyRun_some hs
  refine h.stay rfl { h.items with applying := ?_, applied := ?_ }
  · intro m e hm
    by_cases hmn : m = n
    · subst hmn
      simp only [update_self] at hm
      cases hm
    · simp only [update_of_ne hmn] at hm
      exact h.items.applying m e hm
  · intro p hp
    rcases mem_cons.1 hp with rfl | hp
    · exact h.items.applying n entry he
    · exact h.items.applied p hp

/-! ## The simulation -/

variable {a : Action N C}

/-- **Every step of the cluster is matched by events of the protocol.** -/
theorem Sim.step (h : Sim cfg g s) (hlay : LayoutInv s) (he : ElectionInv s) (hk : KeepsEntry s a)
    (hl : CommitsAsLeader s a) (hs : step cfg cb s a = some s') :
    Sim.Next cfg g s' := by
  cases a with
  | tick n d =>
    cases hs
    exact h.stay rfl { h.items with }
  | timerExpire n jitter =>
    obtain ⟨_, rfl⟩ := timerExpire_some hs
    exact h.stay rfl { h.items with }
  | startPreVote n =>
    obtain rfl | rfl := startPreVote_some hs
    · exact h.stay rfl { h.items with }
    · refine h.stay rfl { h.items with votes := ?_ }
      intro c hc
      rcases mem_append.1 hc with hc | hc
      · exact h.items.votes c hc
      · obtain ⟨p, _, rfl⟩ := List.mem_map.1 hc
        exact nofun
  | campaign n => exact h.campaign hs
  | voteHandle i => exact h.voteHandle hs
  | voteReply i => exact h.voteReply hs
  | collect n takeResult =>
    obtain ⟨_, _, _, rfl⟩ | ⟨_, _, _, _, rfl⟩ := collect_some hs <;>
      exact h.stay rfl { h.items with }
  | finishBallot n => exact h.finishBallot he hs
  | sendStart n peer =>
    obtain ⟨_, _, _, rfl⟩ := sendStart_some hs
    exact h.stay rfl { h.items with }
  | sendAppend i => exact h.sendAppend hs
  | appendHandle i io => exact h.appendHandle hs
  | appendReply i => exact h.appendReply hs
  | loadSnapshot i => exact h.loadSnapshot hs
  | sampleTerm i => exact h.sampleTerm hs
  | chunkHandle i io => exact h.chunkHandle hs
  | runInstaller n => exact h.runInstaller hs
  | renameSnapshot n ok => exact h.renameSnapshot hs
  | installEnd n walOk => exact h.installEnd hlay hs
  | chunkReply i => exact h.chunkReply hs
  | snapshotDone i => exact h.snapshotDone hs
  | compactStart n => exact h.compactStart hs
  | compactCheck n => exact h.compactCheck hs
  | compactSave n ok => exact h.compactSave hs
  | compactEnd n walOk => exact h.compactEnd hs
  | submit n command => exact h.submit hs
  | propose n command =>
    obtain hs | hf := propose_some hs
    · exact h.submit hs
    · exact ⟨g, .refl g, h.forwards hf⟩
  | forwardHandle i =>
    obtain ⟨t, _, _, _, _, ht, hs⟩ | hf := forwardHandle_some hs
    · exact (h.forwards ht).submit hs
    · exact ⟨g, .refl g, h.forwards hf⟩
  | forwardReply i => exact ⟨g, .refl g, h.forwards (forwardReply_some hs)⟩
  | submitPersist k ok => exact h.submitPersist hs
  | submitCommit k => exact h.submitCommit hl hs
  | submitFail k => exact h.submitFail hk hs
  | submitReturn k =>
    obtain ⟨c, f, hk, _, _, rfl⟩ := submitReturn_some hs
    exact h.stay rfl { h.items with
      submits := h.items.setSubmit hk _ }
  | submitGiveUp k =>
    obtain ⟨c, f, hk, _, rfl⟩ := submitGiveUp_some hs
    exact h.stay rfl { h.items with
      submits := h.items.setSubmit hk _ }
  | applyTake n => exact h.applyTake hs
  | applyRun n => exact h.applyRun hs

theorem sim_init (cfg : Config N) (cb : Callbacks C B S) :
    Sim cfg (History.empty : History N (LogEntry C)) (Cluster.init cb : Cluster N C B S) where
  sound := ⟨Inv.empty, fun _ _ _ _ hl => (by cases hl), fun _ _ _ he => (by cases he)⟩
  node := fun n => ⟨rfl, rfl, rfl, rfl, rfl, rfl, rfl, .inl rfl, fun hl => (by cases hl),
    fun _ hs => (by cases hs)⟩
  items := ⟨fun _ hc => (by cases hc), fun _ hc => (by cases hc), fun _ hc => (by cases hc),
    fun _ _ hj => (by cases hj), fun _ _ hj => (by cases hj), fun _ hc => (by cases hc),
    fun _ _ he => (by cases he), fun _ hp => (by cases hp), fun _ _ _ hc => (by cases hc)⟩

/-! ## Along a run -/

/-- A history for the state, with the invariants that its steps rest on. -/
structure Refines (cfg : Config N) (g : History N (LogEntry C)) (s : Cluster N C B S) : Prop where
  sim : Sim cfg g s
  layout : LayoutInv s
  election : ElectionInv s

theorem refines_init (cfg : Config N) (cb : Callbacks C B S) :
    Refines cfg (History.empty : History N (LogEntry C)) (Cluster.init cb : Cluster N C B S) :=
  ⟨sim_init cfg cb, layoutInv_init cb, electionInv_init cb⟩

theorem Refines.step (h : Refines cfg g s) (hk : KeepsEntry s a) (hl : CommitsAsLeader s a)
    (hs : Raft.step cfg cb s a = some s') :
    ∃ g', Evolves g g' ∧ Refines cfg g' s' := by
  obtain ⟨g', ev, hsim⟩ := h.sim.step h.layout h.election hk hl hs
  exact ⟨g', ev, hsim, h.layout.step hs, h.election.step hs⟩

/-- No `Submit` has failed to persist. -/
def Unfailed (s : Cluster N C B S) : Prop :=
  ∀ c ∈ s.submits, c.phase ≠ .failed ∧ ∀ r, c.phase ≠ .rolledBack r

omit [Fintype N] in
theorem Unfailed.step (h : Unfailed s) (hio : a.ioOk = true) (hs : Raft.step cfg cb s a = some s') :
    Unfailed s' := by
  unfold Unfailed
  rcases submits_step hs with hsame | ⟨_, hc, happ⟩ | ⟨hk, hm, hset⟩
  · rw [hsame]
    exact h
  · rw [happ]
    refine forall_mem_concat h ?_
    rw [hc]
    exact ⟨nofun, nofun⟩
  · rw [hset]
    refine forall_mem_set h ?_ _
    cases hm with
    | failed _ hfail =>
      obtain rfl : _ = true := hio
      simp [Config.diskOk] at hfail
    | rolledBack hp => exact absurd hp (h _ (mem_of_getElem? hk)).1
    | _ => exact ⟨nofun, nofun⟩

omit [Fintype N] [DecidableEq N] in
theorem unfailed_init (cb : Callbacks C B S) : Unfailed (Cluster.init cb : Cluster N C B S) := nofun

omit [Fintype N] [DecidableEq N] in
theorem Unfailed.keepsEntry (h : Unfailed s) : KeepsEntry s a := by
  cases a with
  | submitFail k => exact fun c hc hp => absurd hp (h c (mem_of_getElem? hc)).1
  | _ => trivial

end

end MxKeys.Raft
