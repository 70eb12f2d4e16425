/-
# MxKeys.Raft.Accept — replication refines the protocol.

The follower's loop over the entries of a request computes `merge`: the log is left alone if it
holds the entries already and cut back to them otherwise, however the entries below the snapshot and
the conflicts inside the window fall.  A write that fails ends the loop early, with the entries so
far merged and a conflicting tail possibly gone.  Either way `handleAppendEntries` is one `takeOver`
event, the leader's `updateCommitIndex` is a `commit` if anything, and `Submit`,
`handleInstallSnapshot` and `CompactLog` are `publish`, `install` and `compact`.
-/
import MxKeys.Raft.Election
import MxKeys.Raft.Replica

namespace MxKeys.Raft

open MxKeys.Lib MxKeys.Consensus
open Function History

variable {N C B : Type*} [Fintype N] [DecidableEq N]

/-! ## The loop over the entries -/

section Loop

variable {x : Node N C B} {l h log : List (LogEntry C)} {p : Nat} {entry : LogEntry C}
  (hbase : Agree l h x.logOffset) (hlen : x.logOffset ≤ (merge l h p).length)
  (hmatch : ∀ k e f, l[k]? = some e → h[k]? = some f → e.term = f.term → Agree l h (k + 1))
  (hentry : h[p]? = some entry) (hlog : x.log = (merge l h p).drop x.logOffset)

include hlog in
omit [Fintype N] [DecidableEq N] in
/-- What the window holds at an index is what the merged log has there. -/
theorem merged_entryAt {e : LogEntry C} (he : x.entryAt (p + 1) = some e) :
    x.logOffset ≤ p ∧ (merge l h p)[p]? = some e := by
  obtain ⟨hlt, _, hslot⟩ := entryAt_some he
  rw [hlog, List.getElem?_drop] at hslot
  refine ⟨by omega, ?_⟩
  rw [← hslot]
  congr 1
  omega

include hbase hlen hmatch hentry hlog

omit [Fintype N] [DecidableEq N] in
/-- One entry of a request: the log is merged up to it, or the loop ends with a log that has taken
over what came before it. -/
theorem Taken.takes {go : Bool} (ht : Taken x (p + 1) entry log go) :
    (go = true ∧ log = (merge l h (p + 1)).drop x.logOffset ∧
      x.logOffset ≤ (merge l h (p + 1)).length) ∨
    (go = false ∧ ∃ l', Takes l h l' p ∧ log = l'.drop x.logOffset) := by
  cases ht with
  | keep hkeep =>
    have ha : Agree l h (p + 1) := by
      rcases hkeep with hle | ⟨e, he, hterm⟩
      · exact hbase.mono (by omega)
      · obtain ⟨_, hget⟩ := merged_entryAt hlog he
        have hagree := agree_of_lt_merge (lt_length_of_getElem? hget)
        rw [merge_eq_self hagree] at hget
        exact hmatch _ e entry hget hentry hterm
    have hsame : merge l h p = merge l h (p + 1) := by
      rw [merge_eq_self ha, merge_eq_self (ha.mono (Nat.le_succ _))]
    rw [← hsame]
    exact .inl ⟨rfl, hlog, hlen⟩
  | replace e he hne =>
    obtain ⟨hle, hget⟩ := merged_entryAt hlog he
    have hlt := lt_length_of_getElem? hget
    rw [merge_succ_of_ne hentry (by rw [hget]; rintro ⟨⟩; exact hne rfl)]
    have htake : ((merge l h p).take p).length = p := List.length_take_of_le hlt.le
    refine .inl ⟨rfl, ?_, by rw [List.length_append]; omega⟩
    rw [List.drop_append_of_le_length (by omega), List.drop_take, hlog, Nat.sub_right_comm,
      Nat.add_sub_cancel]
  | cut e he hne =>
    obtain ⟨hle, hget⟩ := merged_entryAt hlog he
    -- the log and the leader's part here, so what is left is a part of the leader's
    have hpart : ¬Agree l h (p + 1) := by
      intro ha
      rw [merge_eq_self (ha.mono (Nat.le_succ _)), ha p (Nat.lt_succ_self p), hentry] at hget
      exact hne (by rw [Option.some.inj hget])
    refine .inr ⟨rfl, h.take p, takes_cut hpart, ?_⟩
    rw [← (merge_agree (l := l) (h := h) (i := p)).take_eq, List.drop_take, hlog,
      Nat.sub_right_comm, Nat.add_sub_cancel]
  | extend hlt =>
    have hend : (merge l h p).length ≤ p := by
      unfold Node.logLen at hlt
      rw [hlog, List.length_drop] at hlt
      omega
    rw [merge_succ_of_ne hentry (by rw [List.getElem?_eq_none hend]; rintro ⟨⟩),
      List.take_of_length_le hend, List.drop_append_of_le_length hlen, ← hlog]
    exact .inl ⟨rfl, rfl, by rw [List.length_append]; omega⟩
  | refuse hlt => exact .inr ⟨rfl, _, takes_merge l h p, hlog⟩

end Loop

omit [Fintype N] [DecidableEq N] in
/-- **The loop takes over from the leader's log.**  `l` is the full log of the node, `h` that of the
leader.  It gets to the end, or some write has failed. -/
theorem takeEntries_takes (entries : List (LogEntry C)) (x : Node N C B) (prev i : Nat)
    (t p : Nat → Bool) {l h : List (LogEntry C)} (hbase : Agree l h x.logOffset)
    (hlen : x.logOffset ≤ (merge l h (prev + i)).length)
    (hmatch : ∀ k e f, l[k]? = some e → h[k]? = some f → e.term = f.term → Agree l h (k + 1))
    (hseg : ∀ k e, entries[k]? = some e → h[prev + i + k]? = some e)
    (hlog : x.log = (merge l h (prev + i)).drop x.logOffset) :
    ∃ y go l' k, x.takeEntries prev i t p entries = (y, go) ∧ x.OnlyLog y ∧
      Takes l h l' (prev + i + k) ∧ y.log = l'.drop x.logOffset ∧
      k ≤ entries.length ∧ (go = true → k = entries.length) := by
  induction entries generalizing x i with
  | nil =>
    exact ⟨x, true, _, 0, rfl, ⟨x.log, x.wal, rfl⟩, takes_merge l h (prev + i), hlog,
      le_refl _, fun _ => rfl⟩
  | cons entry rest ih =>
    have hentry : h[prev + i]? = some entry := hseg 0 entry rfl
    obtain ⟨honly, htaken, _⟩ := takeEntry_spec x (prev + i + 1) entry (t i) (p i)
    unfold Node.takeEntries
    obtain ⟨⟨y, go⟩, hy⟩ : ∃ r, x.takeEntry (prev + i + 1) entry (t i) (p i) = r := ⟨_, rfl⟩
    rw [hy] at honly htaken ⊢
    rcases htaken.takes hbase hlen hmatch hentry hlog with ⟨hgo, hylog, hyl⟩ | ⟨hgo, l', htk, hylog⟩
    · obtain rfl : go = true := hgo
      obtain ⟨log, wal, rfl⟩ := honly
      obtain ⟨z, go, l', k, hz, hzonly, htk, hzlog, hk, hend⟩ := ih ((x.setLog log).setWal wal)
        (i + 1) hbase hyl (fun k e he => by rw [← hseg (k + 1) e he]; congr 1; omega) hylog
      refine ⟨z, go, l', k + 1, hz, Node.OnlyLog.trans ⟨log, wal, rfl⟩ hzonly, ?_, hzlog,
        Nat.succ_le_succ hk, fun hgo => by rw [hend hgo, List.length_cons]⟩
      rwa [show prev + i + (k + 1) = prev + (i + 1) + k by omega]
    · obtain rfl : go = false := hgo
      exact ⟨y, false, l', 0, rfl, honly, htk, hylog, Nat.zero_le _, fun hgo => by cases hgo⟩

/-! ## A request from the leader of its term -/

/-- What the fields of a request say about the leader's log. -/
structure RequestSim (g : History N (LogEntry C)) (req : AppendEntriesRequest N C) : Prop where
  elected : Elected g req.term
  entries : ∀ k e, req.entries[k]? = some e → (g.hist req.term)[req.prevLogIndex + k]? = some e
  prev : 0 < req.prevLogIndex → req.prevLogTerm = 0 ∨
    ∃ e, (g.hist req.term)[req.prevLogIndex - 1]? = some e ∧ e.term = req.prevLogTerm
  commit : KnownAt g req.term (g.hist req.term) req.leaderCommit

variable {cfg : Config N} {g g' : History N (LogEntry C)} {n : N} {x : Node N C B}
  {req : AppendEntriesRequest N C}

theorem RequestSim.evolve (hr : RequestSim g req) (h : Inv g) (ev : Evolves g g') :
    RequestSim g' req where
  elected := ev.elected hr.elected
  entries := fun k e he => getElem?_of_isPrefix (ev.hist _) (hr.entries k e he)
  prev := fun hp => (hr.prev hp).imp_right fun ⟨e, he, ht⟩ =>
    ⟨e, getElem?_of_isPrefix (ev.hist _) he, ht⟩
  commit := by
    have hlen := h.known_le_length hr.commit
    rcases ev.knownAt h hr.commit with h0 | ⟨T, j, hcp, hc, hT, ha⟩
    · exact .inl h0
    · exact .inr ⟨T, j, hcp, hc, hT, (ev.agree hlen).trans ha⟩

namespace NodeSim

variable {peer : N} {nextIdx i c now L t A : Nat} {x' : Node N C B}

/-- What a leader sends. -/
theorem requestSim (hx : NodeSim cfg g n x) (h : Sound g)
    (hreq : appendEntriesSnapshot cfg n x peer = some (req, nextIdx)) :
    g.leader req.term = some n ∧ req.prevLogIndex = nextIdx - 1 ∧ RequestSim g req := by
  obtain ⟨hl, hterm, hprev, hcommit, hprevTerm, hentries⟩ := appendEntriesSnapshot_spec hreq
  obtain ⟨hlead, hfull⟩ := hx.leads h hl
  refine ⟨by rw [hterm]; exact hlead, hprev, ⟨n, by rw [hterm]; exact hlead⟩, ?_, ?_, ?_⟩
  · intro k e he
    obtain ⟨hlt, hlog⟩ := hentries k e he
    rw [hx.log_getElem?, hfull] at hlog
    rw [hterm, hprev, ← hlog]
    congr 1
    omega
  · intro hpos
    rw [hprev] at hpos ⊢
    rw [hterm]
    refine hprevTerm.imp_right fun ht => ?_
    obtain ⟨_, e, he, heq⟩ := hx.termAt_full h hpos ht
    rw [hfull] at he
    exact ⟨e, he, heq⟩
  · have := hx.commit
    rw [Known, hfull, hx.term] at this
    rw [hterm, hcommit]
    exact this

/-- The consistency check finds the leader's log below the new entries. -/
theorem prev_agree (hx : NodeSim cfg g n x) (h : Sound g) (hr : RequestSim g req)
    (hT : x.currentTerm ≤ req.term)
    (hp : x.prevMatches req.prevLogIndex req.prevLogTerm = true) :
    req.prevLogIndex ≤ (g.hist req.term).length ∧
      Agree (g.full n) (g.hist req.term) req.prevLogIndex := by
  rcases Nat.eq_zero_or_pos req.prevLogIndex with h0 | hpos
  · rw [h0]
    exact ⟨Nat.zero_le _, .zero _ _⟩
  · have ht := (prevMatches_iff.1 hp).resolve_left (by omega)
    obtain ⟨_, e, he, hterm⟩ := hx.termAt_full h hpos ht
    rcases hr.prev hpos with h0 | ⟨f, hf, hfterm⟩
    · have := (h.full_wf he).2
      omega
    · have hag := h.inv.log_matching hr.elected (hx.term ▸ hT) he hf
        (hterm.trans hfterm.symm)
      have hlt := lt_length_of_getElem? hf
      rw [Nat.sub_add_cancel (by omega)] at hag
      exact ⟨by omega, hag⟩

/-- After taking over, the replica has what the leader made, below its snapshot and above. -/
theorem matched_takeOver (h : Sound g) (hr : RequestSim g req) (hT : g.termOf n ≤ req.term)
    {x : Nat} (hx : x ≤ (g.hist req.term).length) (l : List (LogEntry C)) :
    Matched (g.takeOver n req.term l x) n req.term x := by
  refine ⟨hx, ?_⟩
  intro j e hj he hterm
  rcases lt_or_ge j (g.base n) with hlt | hge
  · have hknown := (h.inv.replica n).base_known
    have hlen := h.inv.known_le_length hknown
    obtain ⟨f, hf⟩ := exists_getElem? (l := g.full n) (k := g.base n - 1) (by omega)
    have hm := h.inv.matched_of_boundary (hknown.boundary (by omega) hf) hT hr.elected n
    rcases hm.2 j e hlt he hterm with ha | hcp
    · exact .inl (.inl ha)
    · exact .inr hcp
  · exact .inl (.inr ⟨rfl, rfl, hge, hj, e, he, hterm⟩)

section Sim

variable (hx : NodeSim cfg g n x)
include hx

/-- A follower of the leader `T` whose log has taken over from the leader's. -/
theorem takeOver (h : Sound g) {T : Nat} (hel : Elected g T)
    (hT : g.termOf n ≤ T) {l : List (LogEntry C)} (ht : Takes (g.full n) (g.hist T) l i)
    {y : Node N C B} (hy : NodeSim cfg (g.lower n T) n y) (hoff : y.logOffset = x.logOffset)
    (hcommit : y.commitIndex = x.commitIndex) {log : List (LogEntry C)} (wal : List (LogEntry C))
    (hlog : log = l.drop y.logOffset) : Moves g (g.takeOver n T l i) n ∧
      NodeSim cfg (g.takeOver n T l i) n ((y.setLog log).setWal wal) := by
  have ev := evolves_takeOver h.inv hel hT ht
  have hfull : (g.takeOver n T l i).full n = l := by simp [History.takeOver]
  have hbase : Agree (g.full n) (g.hist T) y.logOffset := by
    rw [hoff, ← hx.base]
    exact h.inv.known_agree_leader (h.inv.replica n).base_known hT hel
  refine ⟨⟨ev, ⟨h.inv.takeOver hel hT ht, fun U m j e hl hj ht => .inl (h.own U m j e hl hj ht),
    h.numbered⟩, fun m hm => same_takeOver hm _ _ _⟩, ?_⟩
  refine ⟨hy.term, hy.role, hy.base, ?_, hy.boundary, ?_, hy.voted, ?_, ?_, hy.file⟩
  · rw [hfull]
    exact hlog
  · -- below the snapshot boundary nothing has changed
    rw [hfull]
    show y.snapshotTerm = lastTerm (List.take y.logOffset _)
    rw [((ht.keeps _ hbase).trans hbase.symm).take_eq]
    exact hy.snapTerm
  · show Known _ n y.commitIndex
    rw [hcommit]
    exact ev.known hx.commit
  · intro hl
    have hrole := hy.role
    rw [show y.state = .leader from hl] at hrole
    simp [History.lower, State.role] at hrole

omit [Fintype N] [DecidableEq N] in
theorem setCommit (hc : Known g n c) : NodeSim cfg g n (x.setCommit c) :=
  ⟨hx.term, hx.role, hx.base, hx.log, hx.boundary, hx.snapTerm, hx.voted, hc, hx.matched, hx.file⟩

/-- **`handleAppendEntries` is a `takeOver`**, or the node only takes over the term; whatever the
disk does. -/
theorem handleAppendEntries (h : Sound g) (hr : RequestSim g req)
    {io : AppendIo} {r : AppendEntriesResponse}
    (hres : handleAppendEntries cfg n now io x req = (x', r)) :
    ∃ g', Moves g g' n ∧ NodeSim cfg g' n x' ∧ (r.success = true →
      Matched g' n req.term (req.prevLogIndex + req.entries.length) ∧ x'.currentTerm = req.term ∧
        Agree (g'.full n) (g'.hist req.term) (req.prevLogIndex + req.entries.length)) := by
  unfold Raft.handleAppendEntries at hres
  split_ifs at hres with hstale
  · cases hres
    exact ⟨g, .refl h n, hx, nofun⟩
  have hT : x.currentTerm ≤ req.term := Nat.le_of_not_lt hstale
  obtain ⟨hm, hy⟩ := hx.hearLeader h hT now req.leaderId req.leaderAddress
  dsimp only at hres
  have hyc : (x.hearLeader now req.term req.leaderId req.leaderAddress).commitIndex =
      x.commitIndex := rfl
  have hyo : (x.hearLeader now req.term req.leaderId req.leaderAddress).logOffset =
      x.logOffset := rfl
  generalize x.hearLeader now req.term req.leaderId req.leaderAddress = y at hres hy hyc hyo
  split_ifs at hres with hprev
  · cases hres
    exact ⟨_, hm, hy, nofun⟩
  have hprev' : y.prevMatches req.prevLogIndex req.prevLogTerm = true := by simpa using hprev
  have hT' : g.termOf n ≤ req.term := by rw [hx.term]; exact hT
  have hyT : y.currentTerm = req.term := by
    rw [← hy.term]
    simp [History.lower]
  have hr' : RequestSim (g.lower n req.term) req := hr.evolve h.inv hm.ev
  obtain ⟨hle, hag⟩ := hy.prev_agree hm.sound hr' hyT.le hprev'
  change req.prevLogIndex ≤ (g.hist req.term).length at hle
  change Agree (g.full n) (g.hist req.term) req.prevLogIndex at hag
  have hbase : Agree (g.full n) (g.hist req.term) y.logOffset := by
    rw [← hy.base]
    exact h.inv.known_agree_leader (h.inv.replica n).base_known hT' hr.elected
  -- the loop
  obtain ⟨z, go, l, k, hz, ⟨log, wal, rfl⟩, htk, hzlog, _, hend⟩ := takeEntries_takes req.entries y
    req.prevLogIndex 0 (fun i => cfg.diskOk n (io.truncate i))
    (fun i => cfg.diskOk n (io.persist i))
    hbase (by rw [Nat.add_zero, merge_eq_self hag]; exact hy.offset_le hm.sound)
    (fun k e f he hf hterm => h.inv.log_matching hr.elected hT' he hf hterm) hr.entries
    (by rw [Nat.add_zero, merge_eq_self hag]; exact hy.log)
  rw [Nat.add_zero] at htk
  obtain ⟨hmove, hsim⟩ := hx.takeOver h hr.elected hT' htk hy hyo hyc wal hzlog
  rw [hz] at hres
  cases go with
  | false =>
    cases hres
    exact ⟨_, hmove, hsim, nofun⟩
  | true =>
    obtain rfl := hend rfl
    cases hres
    have hlast : req.prevLogIndex + req.entries.length ≤ (g.hist req.term).length := by
      rcases Nat.eq_zero_or_pos req.entries.length with h0 | hpos
      · omega
      · obtain ⟨e, he⟩ :=
          exists_getElem? (l := req.entries) (k := req.entries.length - 1) (by omega)
        have := lt_length_of_getElem? (hr.entries _ e he)
        omega
    have hfull : (g.takeOver n req.term l (req.prevLogIndex + req.entries.length)).full n = l := by
      simp [History.takeOver]
    obtain ⟨c, hc, hcommit⟩ := followCommit_eq ((y.setLog log).setWal wal) req.leaderCommit
      (req.prevLogIndex + req.entries.length)
    rw [hc]
    refine ⟨_, hmove, hsim.setCommit ?_, fun _ => ⟨matched_takeOver h hr hT' hlast l, hyT, ?_⟩⟩
    · rcases hcommit with rfl | ⟨hle', hlast⟩
      · exact hsim.commit
      · rcases hr.commit.le hle' with h0 | ⟨T, j, hcp, hcj, hTT, ha⟩
        · exact .inl h0
        · refine .inr ⟨T, j, hcp, hcj, ?_, ?_⟩
          · simpa [History.takeOver] using hTT
          · rw [hfull]
            exact (htk.agree.mono hlast).trans ha
    · rw [hfull]
      exact htk.agree

/-! ## The commit index of a leader -/

/-- **What a leader moves its commit index to is committed**, by the majority it has counted or
because a later entry of its term already was. -/
theorem commit_of_committable (h : Sound g) (hl : x.state = .leader) (hc : Committable cfg n x c) :
    ∃ g', Moves g g' n ∧ NodeSim cfg g' n (x.setCommit c) := by
  obtain ⟨hpos, hterm, hcount⟩ := hc
  obtain ⟨hlead, hfull⟩ := hx.leads h hl
  obtain ⟨_, e, he, het⟩ := hx.termAt_full h hpos hterm
  rw [hfull] at he
  by_cases hlater : ∃ j, c - 1 ≤ j ∧ g.cp x.currentTerm j
  · obtain ⟨j, hj, hcp⟩ := hlater
    refine ⟨g, .refl h n, hx.setCommit (.inr ⟨x.currentTerm, j, hcp, by omega, ?_, ?_⟩)⟩
    · rw [hx.term]
    · rw [hfull]
      exact .rfl' _ _
  · have hnd : (n :: (cfg.peers n).filter fun p => decide (c ≤ x.matchIndex p)).Nodup := by
      refine List.nodup_cons.2 ⟨fun hmem => ?_, (cfg.peers_nodup n).filter _⟩
      exact (cfg.mem_peers n n).1 (List.mem_of_mem_filter hmem) rfl
    have hQ := majority_of_nodup hnd (by rw [card_eq_peers cfg n, List.length_cons]; omega)
    have hack : ∀ m ∈ (n :: (cfg.peers n).filter fun p => decide (c ≤ x.matchIndex p)).toFinset,
        g.acked m x.currentTerm (c - 1) := by
      intro m hm
      rcases List.mem_cons.1 (List.mem_toFinset.1 hm) with rfl | hm
      · exact h.own _ m _ e hlead he het
      · obtain ⟨hp, hle⟩ := List.mem_filter.1 hm
        have hmatch := (hx.matched hl m hp).2 (c - 1) e (by have := of_decide_eq_true hle; omega)
          he het
        exact hmatch.resolve_right hlater
    have ev := evolves_commit h.inv x.currentTerm (c - 1)
    refine ⟨g.commit x.currentTerm (c - 1), ⟨ev, ⟨h.inv.commit hQ hack, h.own, h.numbered⟩,
      fun m _ => ⟨rfl, rfl, rfl, rfl, fun _ => rfl⟩⟩, ?_⟩
    refine (hx.evolve ev ⟨rfl, rfl, rfl, rfl, fun _ => rfl⟩).setCommit
      (.inr ⟨x.currentTerm, c - 1, .inr ⟨rfl, rfl⟩, by omega, ?_, ?_⟩)
    · show x.currentTerm ≤ g.termOf n
      rw [hx.term]
    · show Agree (g.full n) (g.hist x.currentTerm) c
      rw [hfull]
      exact .rfl' _ _

theorem updateCommitIndex (h : Sound g) (hl : x.state = .leader) :
    ∃ g', Moves g g' n ∧ NodeSim cfg g' n (x.updateCommitIndex cfg n) := by
  obtain ⟨c, heq, hc⟩ := updateCommitIndex_eq cfg n x
  rw [heq]
  rcases hc with rfl | hc
  · exact ⟨g, .refl h n, hx⟩
  · exact hx.commit_of_committable h hl hc

/-- What the leader does with a response. -/
theorem appendEntriesReply (h : Sound g) {resp : AppendEntriesResponse}
    (hprev : req.prevLogIndex = nextIdx - 1)
    (hack : resp.success = true → Matched g peer req.term (req.prevLogIndex + req.entries.length)) :
    ∃ g', Moves g g' n ∧
      NodeSim cfg g' n (appendEntriesReply cfg n x peer req nextIdx resp) := by
  unfold Raft.appendEntriesReply
  split_ifs with hterm hskip hok hnext
  · exact hx.observeTerm h resp.term
  · exact ⟨g, .refl h n, hx⟩
  · have hl : x.state = .leader := by
      by_contra hne
      exact hskip (.inl hne)
    have hT : x.currentTerm = req.term := by
      by_contra hne
      exact hskip (.inr (.inl hne))
    refine NodeSim.updateCommitIndex ⟨hx.term, hx.role, hx.base, hx.log, hx.boundary, hx.snapTerm,
      hx.voted, hx.commit, ?_, hx.file⟩ h hl
    refine fun _ => (forall_update_iff _ fun p i => p ∈ _ → Matched g p x.currentTerm i).2
      ⟨fun _ => ?_, fun p _ => hx.matched hl p⟩
    rw [hT]
    exact (hack hok).le (by omega)
  · exact ⟨g, .refl h n, ⟨hx.term, hx.role, hx.base, hx.log, hx.boundary, hx.snapTerm, hx.voted,
      hx.commit, hx.matched, hx.file⟩⟩
  · exact ⟨g, .refl h n, hx⟩

/-! ## Submit -/

/-- `Submit` publishes into the leader's log. -/
theorem pushEntry (h : Sound g) (hl : x.state = .leader) (command : C) : ∃ g', Moves g g' n ∧
      NodeSim cfg g' n (x.pushEntry ⟨x.logLen + 1, x.currentTerm, command⟩) ∧
      g'.leader x.currentTerm = some n ∧
      (g'.hist x.currentTerm)[x.logLen]? = some ⟨x.logLen + 1, x.currentTerm, command⟩ := by
  obtain ⟨hlead, hfull⟩ := hx.leads h hl
  have hlen := hx.logLen_eq h
  have hoff := hx.offset_le h
  generalize hE : (⟨x.logLen + 1, x.currentTerm, command⟩ : LogEntry C) = e
  have hindex : e.index = x.logLen + 1 := by rw [← hE]
  have hrole : g.role n = .leader := by rw [hx.role, hl]; rfl
  have hterm : Termed.term e = g.termOf n := by
    rw [hx.term, termed_term, ← hE]
  have ev := evolves_publish h.inv hrole hterm
  have hfull' : (g.publish n e).full n = g.full n ++ [e] := by simp [publish]
  have hhist : (g.publish n e).hist x.currentTerm = g.full n ++ [e] := by
    simp [publish, hx.term]
  refine ⟨g.publish n e, ⟨ev, ⟨h.inv.publish hrole hterm, h.own.publish h.inv hrole e, ?_⟩,
    fun m hm => same_publish hm e⟩, ⟨hx.term, hx.role, hx.base, ?_, hx.boundary, ?_, hx.voted,
    ev.known hx.commit, fun hl p hp => ev.matched (hx.matched hl p hp),
    fun snap hsnap => ev.boundary (hx.file snap hsnap)⟩, hlead, ?_⟩
  · intro T k f hf
    by_cases hT : T = x.currentTerm
    · rw [hT, hhist] at hf
      rcases lt_or_ge k (g.full n).length with hlt | hge
      · rw [List.getElem?_append_left hlt] at hf
        exact (h.full_wf hf).1
      · rw [List.getElem?_append_right hge] at hf
        have hk := lt_length_of_getElem? hf
        rw [List.length_singleton] at hk
        have hk0 : k - (g.full n).length = 0 := by omega
        rw [hk0, List.getElem?_cons_zero] at hf
        rw [← Option.some.inj hf, hindex]
        omega
    · rw [← hx.term] at hT
      simp only [publish, update_of_ne hT] at hf
      exact h.numbered T k f hf
  · rw [hfull']
    show x.log ++ [e] = List.drop x.logOffset (g.full n ++ [e])
    rw [List.drop_append_of_le_length hoff, ← hx.log]
  · rw [hfull']
    show x.snapshotTerm = lastTerm (List.take x.logOffset (g.full n ++ [e]))
    rw [List.take_append_of_le_length hoff]
    exact hx.snapTerm
  · rw [hhist, hlen, List.getElem?_append_right le_rfl, Nat.sub_self]
    rfl

/-! ## Snapshots -/

/-- The first section of `handleInstallSnapshot` takes over the term; an installation starts on a
follower. -/
theorem handleInstallSnapshot (h : Sound g) {io : ChunkIo}
    {req : InstallSnapshotRequest N B} {res : ChunkResult B}
    (hres : handleInstallSnapshot cfg n now io x req = (x', res)) :
    ∃ g', Moves g g' n ∧ NodeSim cfg g' n x' ∧
      (∀ data, res = .install data → req.term ≤ g'.settled n) := by
  unfold Raft.handleInstallSnapshot at hres
  split_ifs at hres with hstale hinst
  · cases hres
    exact ⟨g, .refl h n, hx, fun _ hd => by cases hd⟩
  · cases hres
    exact ⟨g, .refl h n, hx, fun _ hd => by cases hd⟩
  · obtain ⟨hm, hy⟩ := hx.hearLeader h (Nat.le_of_not_lt hstale) now req.leaderID req.leaderAddress
    have hsettled : req.term ≤ (g.lower n req.term).settled n := by
      simp [settled, History.lower]
    dsimp only at hres
    split_ifs at hres with hidx
    · cases hres
      exact ⟨_, hm, hy, fun _ hd => by cases hd⟩
    · obtain ⟨p, hp⟩ := receiveChunk_pending cfg n io
        (x.hearLeader now req.term req.leaderID req.leaderAddress) req
      rw [hres] at hp
      obtain rfl : x' = _ := hp
      exact ⟨_, hm, ⟨hy.term, hy.role, hy.base, hy.log, hy.boundary, hy.snapTerm, hy.voted,
        hy.commit, hy.matched, hy.file⟩, fun _ _ => hsettled⟩

/-- **`finishInstall` is an `install`** of a committed prefix. -/
theorem finishInstall (h : Sound g) (hb : Boundary g (g.settled n) L t) (hL : x.logOffset ≤ L) :
    ∃ g', Moves g g' n ∧ NodeSim cfg g' n (finishInstall x L t) := by
  obtain ⟨T, j, e, hcp, hpos, hLj, hT, he, ht⟩ := hb
  have hlen := h.inv.cp_lt_length hcp
  have hTn : T ≤ g.termOf n := le_trans hT (g.settled_le n)
  have hbusy : g.role n ≠ .follower → T < g.termOf n := by
    intro hrole
    obtain ⟨_, f, hf, hfT⟩ := h.inv.cp_entry hcp
    have h1 := (h.inv.hist_wf T j f (Nat.zero_le _) hf).1
    rw [settled, if_neg hrole] at hT
    omega
  have ev := evolves_install h.inv n hcp hLj
  have hinv := h.inv.install hcp hLj hTn (hx.base ▸ hL) hbusy
  have hfull : (g.install n T L).full n = splice (g.hist T) (g.full n) L := by
    simp [install]
  have hbase : (g.install n T L).base n = L := by simp [install]
  have htake : ((g.hist T).take L).length = L := List.length_take_of_le (by omega)
  have hoff : (Raft.finishInstall x L t).logOffset = L := max_eq_right hL
  refine ⟨g.install n T L, ⟨ev, ⟨hinv, h.own, h.numbered⟩, fun m hm => same_install hm T L⟩, ?_⟩
  refine ⟨hx.term, hx.role, by rw [hbase, hoff], ?_, by rw [hoff]; rfl, ?_, hx.voted, ?_,
    fun hl p hp => ev.matched (hx.matched hl p hp),
    fun snap hsnap => ev.boundary (hx.file snap hsnap)⟩
  · rw [finishInstall_log (hx.indexed h), hfull, hoff, splice, hx.log, List.drop_drop,
      List.drop_left' htake, Nat.add_sub_cancel' hL]
  · rw [hfull, hoff, splice, List.take_left' htake]
    show t = _
    have hlast : lastTerm ((g.hist T).take L) = Termed.term e := by
      refine lastTerm_eq ?_
      rw [htake, List.getElem?_take_of_lt (by omega)]
      exact he
    rw [hlast, ht]
  · show Known _ n (max x.commitIndex L)
    rcases le_total x.commitIndex L with hle | hle
    · rw [max_eq_right hle]
      have := (hinv.replica n).base_known
      rwa [hbase] at this
    · rw [max_eq_left hle]
      exact ev.known hx.commit

/-- The checks of `CompactLog` find a committed index and the term of its entry. -/
theorem compactValidate (h : Sound g) (hv : compactValidate x A = some t) :
    Known g n A ∧ Boundary g (g.termOf n) A t := by
  unfold Raft.compactValidate at hv
  split_ifs at hv with hbad
  have hle : A ≤ x.commitIndex := by omega
  obtain ⟨_, e, he, rfl⟩ := hx.termAt_full h (by omega) hv
  have hk : Known g n A := hx.commit.le hle
  exact ⟨hk, KnownAt.boundary hk (by omega) he⟩

/-- **`compactFinish` is a `compact`.** -/
theorem compactFinish (h : Sound g) (hk : Known g n A) (hb : Boundary g (g.termOf n) A t) :
    ∃ g', Moves g g' n ∧ NodeSim cfg g' n (compactFinish x A t) := by
  rcases lt_or_ge x.snapshotIndex A with hlt | hge
  · obtain ⟨hlog, hoff, hsi, hst⟩ := compactFinish_log hx.boundary hlt t
    have hstay : (Raft.compactFinish x A t).state = x.state ∧
        (Raft.compactFinish x A t).currentTerm = x.currentTerm ∧
        (Raft.compactFinish x A t).votedFor = x.votedFor ∧
        (Raft.compactFinish x A t).commitIndex = x.commitIndex ∧
        (Raft.compactFinish x A t).matchIndex = x.matchIndex ∧
        (Raft.compactFinish x A t).snapshotFile = x.snapshotFile := by
      unfold Raft.compactFinish
      split_ifs <;> exact ⟨rfl, rfl, rfl, rfl, rfl, rfl⟩
    obtain ⟨hstate, hterm, hvoted, hcommit, hmatch, hfile⟩ := hstay
    have hb' := hx.boundary
    have ev := evolves_compact h.inv n A
    have hbase : (g.compact n A).base n = A := by simp [compact]
    refine ⟨g.compact n A, ⟨ev, ⟨h.inv.compact hk (by rw [hx.base]; omega), h.own, h.numbered⟩,
      fun m hm => same_compact hm A⟩, ?_⟩
    refine ⟨by rw [hterm]; exact hx.term, by rw [hstate]; exact hx.role, by rw [hbase, hoff], ?_,
      by rw [hsi, hoff], ?_, by rw [hvoted, hterm]; exact hx.voted,
      by rw [hcommit]; exact ev.known hx.commit, ?_, ?_⟩
    · rw [hlog, hoff, hx.log, List.drop_drop, Nat.add_sub_cancel' (by omega)]
      rfl
    · obtain ⟨f, hf, hft⟩ := h.inv.boundary_entry hk hb
      have hlen := lt_length_of_getElem? hf
      have hlast : lastTerm ((g.full n).take A) = Termed.term f := by
        refine lastTerm_eq ?_
        rw [List.length_take_of_le (by omega), List.getElem?_take_of_lt (by omega)]
        exact hf
      rw [hst, hoff]
      show t = lastTerm ((g.full n).take A)
      rw [hlast, hft]
    · rw [hstate, hterm, hmatch]
      exact fun hl p hp => ev.matched (hx.matched hl p hp)
    · rw [hfile, hterm]
      exact fun snap hsnap => ev.boundary (hx.file snap hsnap)
  · refine ⟨g, .refl h n, ?_⟩
    have hsame : Raft.compactFinish x A t = x := by
      unfold Raft.compactFinish
      rw [if_pos hge]
    rw [hsame]
    exact hx

/-- The last section of `SendInstallSnapshot`, whatever the node is by then. -/
theorem snapshotSent (h : Sound g) (peer : N)
    (hb : Boundary g (g.termOf n) L t) : NodeSim cfg g n (snapshotSent x peer L) := by
  refine ⟨hx.term, hx.role, hx.base, hx.log, hx.boundary, hx.snapTerm, hx.voted, hx.commit, ?_,
    hx.file⟩
  exact fun hl => (forall_update_iff _ fun p i => p ∈ _ → Matched g p x.currentTerm i).2
    ⟨fun _ => h.inv.matched_of_boundary hb hx.term.le ⟨n, (hx.leads h hl).1⟩ _,
      fun p _ => hx.matched hl p⟩

/-! ## Applying -/

/-- What `applyLoop` takes is committed, at the index it carries. -/
theorem committedAt_entryAt (h : Sound g) {e : LogEntry C}
    (hi : i < x.commitIndex) (he : x.entryAt (i + 1) = some e) :
    e.index = i + 1 ∧ CommittedAt g i e := by
  obtain ⟨_, hfull⟩ := hx.entryAt_full he
  rw [Nat.add_sub_cancel] at hfull
  exact ⟨(h.full_wf hfull).1, KnownAt.committedAt hx.commit hi hfull⟩

end Sim

end NodeSim

end MxKeys.Raft
