/-
# MxKeys.Raft.Identity — when index and term identify a command.

A slot of a term is filled by the one leader of that term, so two commands for one slot mean that a
leader filled it twice.  It can: `Submit` publishes before it persists and takes the entry off the
log again if persisting fails, while a heartbeat may already have shipped it.  The next `Submit` of
the same term then reuses the index.

`slot_reused` is a run in which that happens.  `index_term_identify` says that nothing else goes
wrong: as long as no `Submit` publishes into a slot from which an earlier one of the same node took
a different command, index and term identify the command in every log and every message ever,
whatever the disks do.
-/
import MxKeys.Raft.Election
import MxKeys.Raft.Layout

namespace MxKeys.Raft

open MxKeys.Lib
open List Function

variable {N C B S : Type*}

/-! ## The condition -/

/-- `e` is in the log of some node or in some `AppendEntries` message. -/
def Appears (s : Cluster N C B S) (e : LogEntry C) : Prop :=
  (∃ n, e ∈ (s.node n).log) ∨ ∃ c ∈ s.appends, e ∈ c.req.entries

/-- The action makes node `n` publish `command` if `n` is the leader. -/
def Publishes (s : Cluster N C B S) : Action N C → N → C → Prop
  | .submit m command', n, command => n = m ∧ command = command'
  | .propose m command', n, command => n = m ∧ command = command'
  | .forwardHandle i, n, command => ∃ sender, s.forwards[i]? = some ⟨sender, n, command, .sent⟩
  | _, _, _ => False

/-- A `Submit` on node `n` took `e` off the log after a failed write. -/
def RolledBack (s : Cluster N C B S) (n : N) (e : LogEntry C) : Prop :=
  ∃ d ∈ s.submits, d.self = n ∧ d.phase = .rolledBack (some e)

/-- No command is published into a slot that another command was taken off before. -/
def FreshSlot (s : Cluster N C B S) (a : Action N C) : Prop :=
  ∀ n command, Publishes s a n command → (s.node n).state = .leader → ∀ e, RolledBack s n e →
    e.index = (s.node n).logLen + 1 → e.term = (s.node n).currentTerm → e.command = command

/-! ## The invariant -/

/-- `e` was published by some `Submit`. -/
def Published (s : Cluster N C B S) (e : LogEntry C) : Prop := ∃ c ∈ s.submits, c.entry = e

/-- Entries in logs and messages were published, each slot of a term once. -/
structure IdentityInv (s : Cluster N C B S) : Prop where
  log : ∀ n, ∀ e ∈ (s.node n).log, Published s e
  msgs : ∀ c ∈ s.appends, ∀ e ∈ c.req.entries, Published s e
  unique : ∀ c ∈ s.submits, ∀ d ∈ s.submits, c.entry.index = d.entry.index →
    c.entry.term = d.entry.term → c.entry = d.entry
  by_leader : ∀ c ∈ s.submits, (c.entry.term, c.self) ∈ s.elections
  /-- What the leader published in its term is in its log, compacted, or taken off. -/
  kept : ∀ n, (s.node n).state = .leader → ∀ c ∈ s.submits, c.self = n →
    c.entry.term = (s.node n).currentTerm →
    c.entry ∈ (s.node n).log ∨ c.entry.index ≤ (s.node n).logOffset ∨ RolledBack s n c.entry

theorem identityInv_init [DecidableEq N] (cb : Callbacks C B S) :
    IdentityInv (Cluster.init cb : Cluster N C B S) where
  log := nofun
  msgs := nofun
  unique := nofun
  by_leader := nofun
  kept := nofun

variable [Fintype N] [DecidableEq N] {cfg : Config N} {cb : Callbacks C B S}
  {s s' : Cluster N C B S} {a : Action N C} {n : N} {command : C} {origin : Option Nat}
  {e : LogEntry C}

omit [Fintype N] in
theorem Published.step (hs : step cfg cb s a = some s') (h : Published s e) :
    Published s' e := by
  obtain ⟨c, hc, rfl⟩ := h
  rcases submits_step hs with hsame | ⟨_, _, happ⟩ | ⟨hk, hm, hset⟩
  · exact ⟨c, hsame ▸ hc, rfl⟩
  · exact ⟨c, happ ▸ mem_append_left _ hc, rfl⟩
  · obtain ⟨c', hc', hent, _⟩ := (submits_set hk hm.not_rolledBack).2 c hc
    exact ⟨c', hset ▸ hc', hent⟩

omit [Fintype N] in
/-- What a request carries comes from another request or from a log. -/
theorem IdentityInv.msgs_step (h : IdentityInv s) (hs : step cfg cb s a = some s') :
    ∀ c ∈ s'.appends, ∀ e ∈ c.req.entries, Published s' e := by
  intro c' hc' e hm
  refine Published.step hs ?_
  obtain ⟨c, hc, _, rfl⟩ | ⟨_, n, _, _, _, _, _, hreq, rfl⟩ := requests_step hs hc'
  · exact h.msgs c hc e hm
  · obtain ⟨k, hk⟩ := mem_iff_getElem?.1 hm
    obtain ⟨_, _, _, _, _, hentries⟩ := appendEntriesSnapshot_spec hreq
    exact h.log n e (mem_of_getElem? (hentries k e hk).2)

/-- A new leader has published nothing in its term, an old one is the leader it was. -/
theorem IdentityInv.kept_step (h : IdentityInv s) (he : ElectionInv s)
    (hs : step cfg cb s a = some s') (hl : (s'.node n).state = .leader) {c : SubmitCall N C}
    (hc : c ∈ s.submits) (hn : c.self = n) (hterm : c.entry.term = (s'.node n).currentTerm) :
    (s.node n).state = .leader ∧ (c.entry ∈ (s.node n).log ∨
      c.entry.index ≤ (s.node n).logOffset ∨ RolledBack s n c.entry) := by
  obtain ⟨hsame, hwas⟩ := leader_step hs hl
  rw [hsame] at hterm
  rcases hwas with hwas | hwas
  · exact ⟨hwas, h.kept n hwas c hc hn hterm⟩
  · have hwon := h.by_leader c hc
    rw [hterm, hn] at hwon
    exact absurd hwon (he.open_ n hwas)

theorem IdentityInv.quiet (h : IdentityInv s) (he : ElectionInv s)
    (hs : step cfg cb s a = some s') (hq : LogQuiet s s') : IdentityInv s' := by
  have hpart : ∀ n, (s'.node n).log = (s.node n).log ∧
      (s'.node n).logOffset = (s.node n).logOffset := fun n => by
    have := hq.node n
    simp only [Node.logPart, Prod.mk.injEq] at this
    exact ⟨this.1, this.2.1⟩
  refine ⟨?_, h.msgs_step hs, ?_, ?_, ?_⟩
  · intro n e hm
    rw [(hpart n).1] at hm
    exact (h.log n e hm).step hs
  · intro c hc d hd hi ht
    obtain ⟨c₀, hc₀, hce, _⟩ := hq.submits c hc
    obtain ⟨d₀, hd₀, hde, _⟩ := hq.submits d hd
    rw [hce, hde] at hi ht ⊢
    exact h.unique c₀ hc₀ d₀ hd₀ hi ht
  · intro c hc
    obtain ⟨c₀, hc₀, hce, hcs⟩ := hq.submits c hc
    rw [hce, hcs]
    exact elections_mono hs _ (h.by_leader c₀ hc₀)
  · intro n hl c hc hn hterm
    obtain ⟨c₀, hc₀, hce, hcs⟩ := hq.submits c hc
    rw [hce] at hterm ⊢
    rw [hcs] at hn
    rw [(hpart n).1, (hpart n).2]
    obtain ⟨_, hin | hle | ⟨d, hd, hdn, hdp⟩⟩ := h.kept_step he hs hl hc₀ hn hterm
    · exact .inl hin
    · exact .inr (.inl hle)
    · obtain ⟨d', hd', _, hds, hph⟩ := hq.keeps d hd
      exact .inr (.inr ⟨d', hd', hds.trans hdn, hph _ hdp⟩)

/-- **Publishing into a fresh slot** keeps index and term a name for the command. -/
theorem IdentityInv.submit (h : IdentityInv s) (hlay : LayoutInv s) (he : ElectionInv s)
    (hfresh : (s.node n).state = .leader → ∀ e, RolledBack s n e →
      e.index = (s.node n).logLen + 1 → e.term = (s.node n).currentTerm → e.command = command)
    (hs : s.submit n command origin = some s') : IdentityInv s' := by
  obtain ⟨hl, rfl⟩ := submit_some hs
  -- whoever filled the slot before was this node, in this term, and its entry is gone
  have hsame : ∀ c ∈ s.submits, c.entry.index = (s.node n).logLen + 1 →
      c.entry.term = (s.node n).currentTerm →
      c.entry = ⟨(s.node n).logLen + 1, (s.node n).currentTerm, command⟩ := by
    intro c hc hi ht
    have hself : c.self = n := by
      have hwon := h.by_leader c hc
      rw [ht] at hwon
      exact he.unique hwon (he.leads n hl)
    have hgone : RolledBack s n c.entry := by
      rcases h.kept n hl c hc hself ht with hin | hle | hrb
      · obtain ⟨k, hk, hkeq⟩ := getElem_of_mem hin
        have := hlay.indexed n k c.entry (by rw [getElem?_eq_getElem hk, hkeq])
        unfold Node.logLen at hi
        omega
      · unfold Node.logLen at hi
        omega
      · exact hrb
    exact LogEntry.ext hi ht (hfresh hl _ hgone hi ht)
  have hpub : ∀ e, Published s e → ∃ c ∈ s.submits ++ [(⟨n, ⟨(s.node n).logLen + 1,
      (s.node n).currentTerm, command⟩, (s.node n).log.length + 1, origin, .published⟩ :
      SubmitCall N C)], c.entry = e := by
    rintro e ⟨c, hc, rfl⟩
    exact ⟨c, mem_append_left _ hc, rfl⟩
  refine ⟨?_, ?_, ?_, ?_, ?_⟩
  · intro m e hm
    by_cases hmn : m = n
    · subst hmn
      simp only [update_self, Node.pushEntry] at hm
      rcases mem_append.1 hm with hm | hm
      · exact hpub e (h.log m e hm)
      · exact ⟨_, mem_append_right _ (mem_singleton_self _),
          (mem_singleton.1 hm).symm⟩
    · simp only [update_of_ne hmn] at hm
      exact hpub e (h.log m e hm)
  · intro c hc e hm
    exact hpub e (h.msgs c hc e hm)
  · intro c hc d hd hi ht
    rcases mem_append.1 hc with hc | hc <;> rcases mem_append.1 hd with hd | hd
    · exact h.unique c hc d hd hi ht
    · obtain rfl := mem_singleton.1 hd
      exact hsame c hc hi ht
    · obtain rfl := mem_singleton.1 hc
      exact (hsame d hd hi.symm ht.symm).symm
    · rw [mem_singleton.1 hc, mem_singleton.1 hd]
  · intro c hc
    rcases mem_append.1 hc with hc | hc
    · exact h.by_leader c hc
    · obtain rfl := mem_singleton.1 hc
      exact he.leads n hl
  · intro m hm c hc hself ht
    by_cases hmn : m = n
    · subst hmn
      simp only [update_self, Node.pushEntry] at hm ht ⊢
      rcases mem_append.1 hc with hc | hc
      · exact (h.kept m hm c hc hself ht).imp (mem_append_left _) (Or.imp_right
          fun ⟨d, hd, hd'⟩ => ⟨d, mem_append_left _ hd, hd'⟩)
      · obtain rfl := mem_singleton.1 hc
        exact .inl (mem_append_right _ (mem_singleton_self _))
    · simp only [update_of_ne hmn] at hm ht ⊢
      rcases mem_append.1 hc with hc | hc
      · exact (h.kept m hm c hc hself ht).imp_right (Or.imp_right
          fun ⟨d, hd, hd'⟩ => ⟨d, mem_append_left _ hd, hd'⟩)
      · obtain rfl := mem_singleton.1 hc
        exact absurd hself.symm hmn

omit [Fintype N] [DecidableEq N] in
theorem IdentityInv.forwards (h : IdentityInv s) (hf : OnlyForwards s s') : IdentityInv s' := by
  obtain ⟨f, rfl⟩ := hf
  exact ⟨h.log, h.msgs, h.unique, h.by_leader, h.kept⟩

/-- One node gets a new log that loses only what it may lose. -/
theorem IdentityInv.of_node (h : IdentityInv s) (he : ElectionInv s)
    (hs : step cfg cb s a = some s') {x : Node N C B} (hnode : s'.node = update s.node n x)
    (hlog : ∀ e ∈ x.log, Published s e)
    (hkept : x.state = .leader → ∀ e ∈ (s.node n).log, x.Holds e)
    (hoff : x.state = .leader → (s.node n).logOffset ≤ x.logOffset)
    (hsub : s'.submits = s.submits) : IdentityInv s' := by
  refine ⟨?_, h.msgs_step hs, by rw [hsub]; exact h.unique, ?_, ?_⟩
  · rw [hnode]
    exact (forall_update_iff _ fun _ (y : Node N C B) => ∀ e ∈ y.log, Published s' e).2
      ⟨fun e hm => (hlog e hm).step hs, fun m _ e hm => (h.log m e hm).step hs⟩
  · intro c hc
    rw [hsub] at hc
    exact elections_mono hs _ (h.by_leader c hc)
  · intro m hl c hc hself ht
    rw [hsub] at hc
    obtain ⟨_, hin⟩ := h.kept_step he hs hl hc hself ht
    have hrb : RolledBack s m c.entry → RolledBack s' m c.entry := fun ⟨d, hd, hd'⟩ =>
      ⟨d, by rw [hsub]; exact hd, hd'⟩
    rw [hnode] at hl ⊢
    by_cases hmn : m = n
    · subst hmn
      rw [update_self] at hl ⊢
      rcases hin with hin | hle | hin
      · exact (hkept hl _ hin).imp_right .inl
      · exact .inr (.inl (le_trans hle (hoff hl)))
      · exact .inr (.inr (hrb hin))
    · rw [update_of_ne hmn]
      exact hin.imp_right (Or.imp_right hrb)

omit [Fintype N] in
/-- **A rollback** loses only the entry it records. -/
theorem IdentityInv.submitFail (h : IdentityInv s) {k : Nat} (hs : s.submitFail k = some s') :
    IdentityInv s' := by
  obtain ⟨c, f, hk, hp, rfl⟩ := submitFail_some hs
  have hphase : ∀ r, c.phase ≠ .rolledBack r := fun r hr => by
    rw [hp] at hr
    cases hr
  generalize hr : (s.node c.self).rolledBackEntry c.entry c.publishedLen = r at *
  obtain ⟨hnew, hkeep⟩ : _ ∧ ∀ d ∈ s.submits,
      ∃ c' ∈ s.submits.set k { c with phase := .rolledBack r }, c'.entry = d.entry ∧
        c'.self = d.self ∧ ∀ r, d.phase = .rolledBack r → c'.phase = .rolledBack r :=
    submits_set hk hphase
  have hpub : ∀ e, Published s e →
      ∃ c' ∈ s.submits.set k { c with phase := .rolledBack r }, c'.entry = e := by
    rintro e ⟨d, hd, rfl⟩
    obtain ⟨d', hd', hent, _⟩ := hkeep d hd
    exact ⟨d', hd', hent⟩
  have hx := submitRollback_eq (s.node c.self) c.entry c.publishedLen
  refine ⟨?_, fun d hd e hm => hpub e (h.msgs d hd e hm), ?_, ?_, ?_⟩
  · intro m e hm
    refine hpub e (h.log m e ?_)
    by_cases hmn : m = c.self
    · subst hmn
      simp only [update_self] at hm
      rcases hx with ⟨_, hx⟩ | ⟨last, _, _, hx⟩
      · rw [hx] at hm
        exact hm
      · rw [hx] at hm
        exact mem_of_mem_dropLast hm
    · simpa only [update_of_ne hmn] using hm
  · intro d hd d' hd' hi ht
    obtain ⟨d₀, hd₀, hde, _⟩ := hnew d hd
    obtain ⟨d₁, hd₁, hde', _⟩ := hnew d' hd'
    rw [hde, hde'] at hi ht ⊢
    exact h.unique d₀ hd₀ d₁ hd₁ hi ht
  · intro d hd
    obtain ⟨d₀, hd₀, hde, hds⟩ := hnew d hd
    rw [hde, hds]
    exact h.by_leader d₀ hd₀
  · intro m hl d hd hself ht
    obtain ⟨d₀, hd₀, hde, hds⟩ := hnew d hd
    have hrb : RolledBack s m d₀.entry →
        ∃ d' ∈ s.submits.set k { c with phase := .rolledBack r },
          d'.self = m ∧ d'.phase = .rolledBack (some d₀.entry) := by
      rintro ⟨d₁, hd₁, hdm, hph⟩
      obtain ⟨d', hd', _, hds', hph'⟩ := hkeep d₁ hd₁
      exact ⟨d', hd', hds'.trans hdm, hph' _ hph⟩
    rw [hde] at ht ⊢
    rw [hds] at hself
    by_cases hmn : m = c.self
    · subst hmn
      simp only [update_self] at hl ht ⊢
      rcases hx with ⟨_, hx⟩ | ⟨last, hlast, hget, hx⟩
      · rw [hx] at hl ht ⊢
        exact (h.kept _ hl d₀ hd₀ hself ht).imp_right (Or.imp_right hrb)
      · rw [hx] at hl ht ⊢
        rcases h.kept _ hl d₀ hd₀ hself ht with hin | hle | hin
        · rw [← dropLast_append_getLast? last hget] at hin
          rcases mem_append.1 hin with hin | hin
          · exact .inl hin
          · refine .inr (.inr ⟨_, mem_of_getElem?
              (getElem?_set_self (List.getElem?_eq_some_iff.1 hk).1), rfl, ?_⟩)
            rw [← hr, hlast, mem_singleton.1 hin]
        · exact .inr (.inl hle)
        · exact .inr (.inr (hrb hin))
    · simp only [update_of_ne hmn] at hl ht ⊢
      exact (h.kept m hl d₀ hd₀ hself ht).imp_right (Or.imp_right hrb)

/-- **Every step that publishes into fresh slots only** keeps the invariant. -/
theorem IdentityInv.step (h : IdentityInv s) (hlay : LayoutInv s) (he : ElectionInv s)
    (hfresh : FreshSlot s a) (hs : step cfg cb s a = some s') : IdentityInv s' := by
  cases ha : a.writesLog with
  | false => exact h.quiet he hs (logQuiet_step ha hs)
  | true =>
    cases a with
    | sendAppend i =>
      have hmsgs := h.msgs_step hs
      obtain rfl | ⟨_, _, _, _, _, _, rfl⟩ := sendAppend_some hs <;>
        exact ⟨h.log, hmsgs, h.unique, h.by_leader, h.kept⟩
    | appendHandle i io =>
      obtain ⟨sender, peer, nextIdx, req, x, r, hi, hx, hs'⟩ := appendHandle_some hs
      have hmem := mem_of_getElem? hi
      obtain ⟨_, _, _, hlog, hstate⟩ := handleAppendEntries_indexed cfg peer (s.clock peer) io
        (s.node peer) req (hlay.indexed peer) (le_of_eq (hlay.boundary peer))
        (hlay.msgs _ hmem) hx
      refine h.of_node he hs (n := peer) (x := x) (by rw [hs']) ?_ ?_ ?_ (by rw [hs'])
      · intro e hm
        rcases hlog e hm with hm | hm
        · exact h.log peer e hm
        · exact h.msgs _ hmem e hm
      · intro hl e hm
        rcases hstate with rfl | hf
        · exact .inl hm
        · rw [hf] at hl
          cases hl
      · intro hl
        rcases hstate with rfl | hf
        · exact le_rfl
        · rw [hf] at hl
          cases hl
    | installEnd n walOk =>
      obtain ⟨i, index, term, data, wal, _, hs'⟩ := installEnd_some hs
      refine h.of_node he hs (n := n)
        (x := (finishInstall (s.node n) index term).setWal wal) (by rw [hs']; rfl) ?_ ?_ ?_
        (by rw [hs']; rfl)
      · intro e hm
        exact h.log n e (mem_of_mem_filter hm)
      · exact fun _ e hm => Node.Holds.finishInstall (.inl hm) (hlay.indexed n) index term
      · exact fun _ => le_max_left _ _
    | compactEnd n walOk =>
      obtain ⟨idx, term, wal, _, hs'⟩ := compactEnd_some hs
      have hb := hlay.boundary n
      -- the window keeps its entries above the new boundary
      have hfin : (compactFinish (s.node n) idx term = s.node n) ∨
          ((compactFinish (s.node n) idx term).log =
            (s.node n).log.drop (idx - (s.node n).logOffset) ∧
          (compactFinish (s.node n) idx term).logOffset = idx ∧ (s.node n).logOffset < idx) := by
        rcases lt_or_ge (s.node n).snapshotIndex idx with hlt | hge
        · obtain ⟨h1, h2, _, _⟩ := compactFinish_log hb hlt term
          exact .inr ⟨h1, h2, by omega⟩
        · refine .inl ?_
          unfold compactFinish
          rw [if_pos hge]
      refine h.of_node he hs (n := n)
        (x := (compactFinish (s.node n) idx term).setWal wal) (by rw [hs']; rfl) ?_ ?_ ?_
        (by rw [hs']; rfl)
      · intro e hm
        have hm' : e ∈ (compactFinish (s.node n) idx term).log := hm
        rcases hfin with heq | ⟨hlog, _, _⟩
        · rw [heq] at hm'
          exact h.log n e hm'
        · rw [hlog] at hm'
          exact h.log n e (mem_of_mem_drop hm')
      · exact fun _ e hm => Node.Holds.compactFinish (.inl hm) (hlay.indexed n) hb idx term
      · intro _
        show (s.node n).logOffset ≤ (compactFinish (s.node n) idx term).logOffset
        rcases hfin with heq | ⟨_, hoff, hlt⟩
        · rw [heq]
        · rw [hoff]
          exact le_of_lt hlt
    | submit n command => exact h.submit hlay he (hfresh n command ⟨rfl, rfl⟩) hs
    | propose n command =>
      obtain hs | hf := propose_some hs
      · exact h.submit hlay he (hfresh n command ⟨rfl, rfl⟩) hs
      · exact h.forwards hf
    | forwardHandle i =>
      obtain ⟨t, sender, leader, command, hi, ⟨f, rfl⟩, hs⟩ | hf := forwardHandle_some hs
      · exact (h.forwards ⟨f, rfl⟩).submit (hlay.forwards ⟨f, rfl⟩)
          (he.quiet (quiet_forwards ⟨f, rfl⟩)) (hfresh leader command ⟨sender, hi⟩) hs
      · exact h.forwards hf
    | submitFail k => exact h.submitFail hs
    | _ => cases ha

/-! ## Index and term identify the command -/

theorem identityInv_reach (h : Reach (Raft.step cfg cb) FreshSlot (Cluster.init cb) s) :
    IdentityInv s := by
  have hall : IdentityInv s ∧ LayoutInv s ∧ ElectionInv s := by
    refine h.invariant (P := fun s => IdentityInv s ∧ LayoutInv s ∧ ElectionInv s)
      ⟨identityInv_init cb, layoutInv_init cb, electionInv_init cb⟩ ?_
    rintro t a u ⟨hi, hl, he⟩ hok hu
    exact ⟨hi.step hl he hok hu, hl.step hu, he.step hu⟩
  exact hall.1

omit [Fintype N] in
theorem published_reach {ok : Cluster N C B S → Action N C → Prop} (h : Reach (step cfg cb) ok s s')
    (hp : Published s e) : Published s' e :=
  h.invariant (P := fun s => Published s e) hp fun _ _ _ hi _ hu => hi.step hu

omit [Fintype N] [DecidableEq N] in
theorem IdentityInv.published (h : IdentityInv s) (ha : Appears s e) :
    Published s e := by
  rcases ha with ⟨n, hm⟩ | ⟨c, hc, hm⟩
  · exact h.log n e hm
  · exact h.msgs c hc e hm

/-- **Index and term identify the command.**  In every run that publishes into fresh slots only,
whatever writes fail: two entries that are ever in a log or in a message and agree in index and term
carry the same command. -/
theorem index_term_identify {t : Cluster N C B S}
    (hs : Reach (step cfg cb) FreshSlot (Cluster.init cb) s)
    (ht : Reach (step cfg cb) FreshSlot s t) {e e' : LogEntry C} (he : Appears s e)
    (he' : Appears t e') (hindex : e.index = e'.index) (hterm : e.term = e'.term) :
    e.command = e'.command := by
  obtain ⟨c, hc, rfl⟩ := published_reach ht ((identityInv_reach hs).published he)
  have hinv := identityInv_reach (hs.trans ht)
  obtain ⟨c', hc', rfl⟩ := hinv.published he'
  rw [hinv.unique c hc c' hc' hindex hterm]

/-- No write has failed so far. -/
def NoRollback (s : Cluster N C B S) : Bool :=
  s.submits.all fun d => match d.phase with
    | .rolledBack _ => false
    | _ => true

omit [Fintype N] [DecidableEq N] in
theorem freshSlot_of_noRollback (h : NoRollback s = true) : FreshSlot s a := by
  rintro n command - - e ⟨d, hd, -, hp⟩
  have := all_eq_true.1 h d hd
  rw [hp] at this
  cases this

/-- Node `a` publishes the command `1` and ships it to node `b`. -/
def shipSchedule (a b c : N) : List (Action N Nat) :=
  [electionSchedule [a, b, c] 1 a [0] [2], [.submit a 1], appendSchedule a b 0 0].flatten

theorem index_term_identify_shipped :
    ∃ s : Cluster (Fin 3) Nat Nat Unit,
      Reach (step (.complete 3 1) .stateless) FreshSlot (Cluster.init .stateless) s ∧
      Appears s ⟨1, 1, 1⟩ ∧ ∀ t, Reach (step (.complete 3 1) .stateless) FreshSlot s t →
        ∀ command, Appears t ⟨1, 1, command⟩ → command = 1 := by
  have hrun : (execute (step (.complete 3 1) .stateless) (fun s _ => NoRollback s)
      (Cluster.init .stateless : Cluster (Fin 3) Nat Nat Unit) (shipSchedule 0 1 2)).map
      (fun s => (s.node 1).log) = some [⟨1, 1, 1⟩] := by
    decide +kernel
  obtain ⟨s, hs, hlog⟩ := reach_observe (P := fun _ => True) (fun _ _ => trivial)
    (fun _ _ _ h => freshSlot_of_noRollback h) hrun
  have happ : Appears s ⟨1, 1, 1⟩ := .inl ⟨1, hlog ▸ mem_singleton_self _⟩
  exact ⟨s, hs, happ, fun t ht command hc => (index_term_identify hs ht happ hc rfl rfl).symm⟩

/-- **A slot filled twice.**  The entry of node `1` came from a `Submit` whose write failed after a
heartbeat had shipped it; the leader has given its index to another command in the same term. -/
theorem slot_reused :
    ∃ s : Cluster (Fin 3) Nat Nat Unit,
      Reach (step (.complete 3 1) .stateless) anyAction (Cluster.init .stateless) s ∧
      ∃ e e', Appears s e ∧ Appears s e' ∧ e.index = e'.index ∧ e.term = e'.term ∧
        e.command ≠ e'.command := by
  have hrun : (execute (step (.complete 3 1) .stateless) (fun _ _ => true)
      (Cluster.init .stateless : Cluster (Fin 3) Nat Nat Unit)
      [shipSchedule 0 1 2, [.submitPersist 0 false, .submitFail 0, .submit 0 2]].flatten).map
      (fun s => ((s.node 1).log, (s.node 0).log)) = some ([⟨1, 1, 1⟩], [⟨1, 1, 2⟩]) := by
    decide +kernel
  obtain ⟨s, hs, hlogs⟩ := reach_observe_any hrun
  obtain ⟨hone, hzero⟩ := Prod.mk.inj hlogs
  exact ⟨s, hs, ⟨1, 1, 1⟩, ⟨1, 1, 2⟩, .inl ⟨1, hone ▸ mem_singleton_self _⟩,
    .inl ⟨0, hzero ▸ mem_singleton_self _⟩, rfl, rfl, by decide⟩

end MxKeys.Raft
