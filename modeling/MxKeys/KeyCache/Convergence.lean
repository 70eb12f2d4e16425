/-
# MxKeys.KeyCache.Convergence — every cache holds the committed history up to `lastApplied`.

`cache_is_history`: at a node where nothing is being applied or installed, the keys are the result
of the commands committed at `1 .. lastApplied`, as long as no snapshot is installed over a cache
that is already past it (`InstallsForward`), and under the conditions of `state_machine_safety`.

The code does not check the former: `handleInstallSnapshot` compares the snapshot with
`snapshotIndex`, which says how far the log was compacted and not how far the cache is, and
`installKeySnapshot` replaces the keys while it keeps `raftLastApplied` at the maximum of the two.
`cache_rolled_back` is a run in which a follower that has applied two commands loses the second one.
-/
import MxKeys.KeyCache.Replica
import MxKeys.Raft.Bookkeeping

namespace MxKeys.KeyCache

open MxKeys.Lib MxKeys.Raft MxKeys.Consensus
open List Option Function

variable {N C B S : Type*}

/-! ## The cluster -/

/-- The installer is never given a snapshot that is behind the cache. -/
def InstallsForward (s : Cluster N C B CRDTState) : Action N C → Prop
  | .runInstaller n => ∀ i index term data, s.snapMu n = some (.install i index term data) →
      (s.app n).raftLastApplied ≤ index
  | _ => True

/-- `Steady`, and installs are `InstallsForward`. -/
def Forward [DecidableEq N] (s : Cluster N C B CRDTState) (a : Action N C) : Prop :=
  Steady s a ∧ InstallsForward s a

/-- Every cache, and every snapshot on its way, is a replay of the applied entries. -/
structure CacheInv (codec : Codec C B) (s : Cluster N C B CRDTState) : Prop where
  node : ∀ n, NodeInv codec s.applied (s.node n) (s.app n) (s.applying n) (s.snapMu n)
  snaps : ∀ c ∈ s.snaps, Content codec s.applied c.snap.lastIncludedIndex c.snap.data

variable {codec : Codec C B}

theorem cacheInv_init : CacheInv codec
    (Cluster.init codec.callbacks : Cluster N C B CRDTState) where
  node := fun _ => ⟨⟨[], fun _ _ he => (by cases he), rfl, rfl⟩,
    ⟨Nat.zero_le _, Nat.zero_le _, Nat.zero_le _⟩, ⟨Nat.zero_le _, Nat.zero_le _⟩, Nat.zero_le _,
    fun _ hj => (by cases hj), fun _ hf => (by cases hf), .inl rfl⟩
  snaps := nofun

section

variable [Fintype N] [DecidableEq N] {cfg : Config N} {s s' : Cluster N C B CRDTState} {n : N}
  {a : Action N C} {g : History N (LogEntry C)}

omit [Fintype N] in
/-- One node moves; each part of it is set or stays. -/
theorem CacheInv.move (hi : CacheInv codec s) (hd : s.applied ⊆ s'.applied) (n : N)
    {x : Node N C B} {st : CRDTState} {applying : Option (LogEntry C)} {job : Option (SnapJob B)}
    (hx : NodeInv codec s'.applied x st applying job)
    (hnode : s'.node = update s.node n x := by first | rfl | exact unmoved _ n)
    (happ : s'.app = update s.app n st := by first | rfl | exact unmoved _ n)
    (hap : s'.applying = update s.applying n applying := by first | rfl | exact unmoved _ n)
    (hm : s'.snapMu = update s.snapMu n job := by first | rfl | exact unmoved _ n) (m : N) :
    NodeInv codec s'.applied (s'.node m) (s'.app m) (s'.applying m) (s'.snapMu m) := by
  rw [hnode, happ, hap, hm]
  by_cases hmn : m = n
  · subst hmn
    simpa only [update_self] using hx
  · simpa only [update_of_ne hmn] using (hi.node m).mono hd

omit [Fintype N] in
/-- What is on its way was on its way before, or is the snapshot of a node. -/
theorem CacheInv.snaps_step (hi : CacheInv codec s)
    (hs : step cfg codec.callbacks s a = some s') :
    ∀ c ∈ s'.snaps, Content codec s'.applied c.snap.lastIncludedIndex c.snap.data := by
  intro c' hc'
  refine Content.mono ?_ (applied_mono hs)
  rcases Raft.snaps_step hs with hsame | ⟨hfile, happ⟩ | @⟨_, c, _, hc, hset⟩ |
    @⟨_, c, _, _, hc, _, _, hset⟩
  · exact hi.snaps c' (hsame ▸ hc')
  · rw [happ] at hc'
    rcases mem_append.1 hc' with hc' | hc'
    · exact hi.snaps c' hc'
    · rw [mem_singleton.1 hc']
      exact (hi.node _).file _ hfile
  all_goals
    rw [hset] at hc'
    rcases mem_or_eq_of_mem_set hc' with hc' | rfl
    · exact hi.snaps c' hc'
    · exact hi.snaps c (mem_of_getElem? hc)

/-- What has been applied is committed, hence `Consistent`. -/
theorem consistent_of_sim (h : Sim cfg g s) : Consistent s.applied :=
  fun p hp q hq hpq => (h.items.applied p hp).unique h.sound.inv (h.items.applied q hq) hpq

/-- The apply loop always finds its next entry in memory. -/
theorem applyTake_found (h : Sim cfg g s) (hi : CacheInv codec s)
    (hlt : (s.node n).lastApplied < (s.node n).commitIndex) :
    ∃ e, (s.node n).entryAt ((s.node n).lastApplied + 1) = some e ∧
      e.index = (s.node n).lastApplied + 1 := by
  have hx := h.node n
  have hoff := (hi.node n).offset
  have hlen := h.sound.inv.known_le_length hx.commit
  obtain ⟨e, he⟩ := exists_getElem? (l := g.full n) (k := (s.node n).lastApplied) (by omega)
  have hat : (s.node n).entryAt ((s.node n).lastApplied + 1) = some e := by
    rw [hx.entryAt_eq (by omega)]
    exact he
  exact ⟨e, hat, (hx.committedAt_entryAt h.sound hlt hat).1⟩

/-- **One step keeps the caches in line.** -/
theorem CacheInv.step (hi : CacheInv codec s) (h : Sim cfg g s) (hc' : Consistent s'.applied)
    (hio : a.ioOk = true) (hfwd : InstallsForward s a)
    (hs : step cfg codec.callbacks s a = some s') : CacheInv codec s' := by
  have hc := consistent_of_sim h
  have hd := applied_mono hs
  refine ⟨?_, hi.snaps_step hs⟩
  cases ha : touchesCache a with
  | false =>
    intro m
    have hq := cacheQuiet_step ha hs
    rw [hq.app, hq.applying, hq.snapMu, hq.applied]
    exact (hi.node m).frame (hq.node m)
  | true =>
    cases a with
    | loadSnapshot i =>
      obtain rfl | ⟨_, _, _, _, _, rfl⟩ := loadSnapshot_some hs <;> exact hi.node
    | chunkHandle i io =>
      obtain ⟨m, n, snap, term, offset, x, out, hcall, hmu, hx, hout⟩ := chunkHandle_some hs
      have hsnap := hi.snaps _ (mem_of_getElem? hcall)
      have hn := hi.node n
      rw [hmu] at hn
      obtain ⟨hinv, hdata⟩ := hn.handleInstallSnapshot hc hsnap hx
      rcases hout with ⟨r, rfl, rfl⟩ | ⟨data, rfl, rfl⟩
      · refine hi.move hd n ?_
        rw [hmu]
        exact hinv
      · refine hi.move hd n (hinv.setJob rfl rfl fun j hj => ?_)
        cases hj
        rw [hdata data rfl]
        exact hsnap
    | runInstaller n =>
      obtain ⟨i, index, term, data, hmu, hcase⟩ := runInstaller_some hs
      have hn := hi.node n
      rw [hmu] at hn
      obtain ⟨st, hst, hinv⟩ := hn.runInstaller (hfwd i index term data hmu)
      rcases hcase with ⟨st', hst', rfl⟩ | rfl
      · cases hst.symm.trans hst'
        exact hi.move hd n hinv
      · refine hi.move hd n (hn.setJob rfl rfl fun _ hj => ?_)
        cases hj
    | renameSnapshot n ok =>
      obtain ⟨i, index, term, data, hmu, file, hfile, rfl⟩ := renameSnapshot_ok hio hs
      have hn := hi.node n
      rw [hmu] at hn
      exact hi.move hd n (hn.renameSnapshot hfile)
    | installEnd n walOk =>
      obtain ⟨i, index, term, data, wal, hmu, rfl⟩ := installEnd_some hs
      have hn := hi.node n
      rw [hmu] at hn
      exact hi.move hd n (hn.installEnd wal)
    | compactStart n =>
      have hs : s.compactStart cfg codec.callbacks n = some s' := hs
      obtain ⟨hmu, rfl⟩ := compactStart_some hs
      have hn := hi.node n
      rw [hmu] at hn
      exact hi.move hd n hn.compactStart
    | compactCheck n =>
      obtain ⟨data, appliedIdx, hmu, rfl⟩ := compactCheck_some hs
      have hn := hi.node n
      rw [hmu] at hn
      exact hi.move hd n (hn.compactCheck _)
    | compactSave n ok =>
      obtain ⟨data, appliedIdx, term, hmu, rfl | rfl⟩ := compactSave_some hs
      all_goals
        have hn := hi.node n
        rw [hmu] at hn
      · exact hi.move hd n hn.compactSave
      · refine hi.move hd n (hn.setJob rfl rfl fun _ hj => ?_)
        cases hj
    | compactEnd n walOk =>
      obtain ⟨appliedIdx, term, wal, hmu, rfl⟩ := compactEnd_some hs
      have hn := hi.node n
      rw [hmu] at hn
      exact hi.move hd n (hn.compactEnd wal)
    | applyTake n =>
      obtain ⟨hap, hlt, rfl⟩ := applyTake_some hs
      obtain ⟨e, he, hidx⟩ := applyTake_found h hi hlt
      have hn := hi.node n
      rw [hap] at hn
      refine hi.move hd n ?_
      rw [he]
      exact hn.applyTake hidx
    | applyRun n =>
      obtain ⟨e, hap, rfl⟩ := applyRun_some hs
      have hn := hi.node n
      rw [hap] at hn
      exact hi.move hd n (hn.applyRun hc' (h.items.applying n e hap).1)
    | _ => cases ha

theorem cacheInv_reach (hs : Reach (step cfg codec.callbacks) Forward
    (Cluster.init codec.callbacks) s) : CacheInv codec s ∧ Consistent s.applied := by
  have hall : CacheInv codec s ∧ (∃ g, Refines cfg g s) ∧ Unfailed s := by
    refine hs.invariant (P := fun s => CacheInv codec s ∧ (∃ g, Refines cfg g s) ∧ Unfailed s)
      ⟨cacheInv_init, ⟨_, refines_init cfg _⟩, unfailed_init _⟩ ?_
    rintro t a u ⟨hi, ⟨g, hg⟩, hun⟩ ⟨⟨hio, hlead⟩, hfwd⟩ hu
    obtain ⟨g', _, hg'⟩ := hg.step hun.keepsEntry hlead hu
    exact ⟨hi.step hg.sim (consistent_of_sim hg'.sim) hio hfwd hu, ⟨g', hg'⟩, hun.step hio hu⟩
  obtain ⟨hi, ⟨g, hg⟩, _⟩ := hall
  exact ⟨hi, consistent_of_sim hg.sim⟩

/-- **The cache is the history.**  When nothing is being applied or installed on a node, its keys
are those after the commands committed at `1 .. lastApplied`. -/
theorem cache_is_history (hs : Reach (step cfg codec.callbacks) Forward
    (Cluster.init codec.callbacks) s) (hidle : s.applying n = none)
    (hjob : ∀ j, s.snapMu n = some j → j.installs = none) :
    ∃ h, Committed s.applied h ∧ h.length = (s.node n).lastApplied ∧
      (∀ h', Committed s.applied h' → h'.length = (s.node n).lastApplied → h' = h) ∧
      (s.app n).keys = codec.replay h := by
  obtain ⟨hi, hc⟩ := cacheInv_reach hs
  have hn := hi.node n
  have hrep : replacedAt (s.snapMu n) = 0 := by
    unfold replacedAt
    split
    · rename_i hmu
      cases hjob _ hmu
    · rename_i hmu
      cases hjob _ hmu
    · rfl
  obtain ⟨h, hh, hlen, hkeys⟩ := hn.keys
  have hlast : (s.app n).raftLastApplied = (s.node n).lastApplied := by
    obtain ⟨_, _, hle⟩ := hn.taken
    have hge := hn.replaced.2
    rw [hidle, takenAt] at hle
    rw [hrep] at hge
    omega
  exact ⟨h, hh, hlen.trans hlast,
    fun h' hh' hlen' => hc.unique hh' hh (hlen'.trans (hlen.trans hlast).symm), hkeys⟩

/-- `InstallsForward`, evaluated. -/
def installsForward (s : Cluster N C B CRDTState) : Action N C → Bool
  | .runInstaller n => match s.snapMu n with
    | some (.install _ index _ _) => decide ((s.app n).raftLastApplied ≤ index)
    | _ => true
  | _ => true

omit [Fintype N] in
theorem forward_of_checked {a : Action N C} (hio : a.ioOk = true)
    (h : (commitsAsLeader s a && installsForward s a) = true) : Forward s a := by
  obtain ⟨hlead, hfwd⟩ := Bool.and_eq_true_iff.1 h
  refine ⟨steady_of_checked hio hlead, ?_⟩
  cases a with
  | runInstaller n =>
    intro i index term data hmu
    simp only [installsForward, hmu] at hfwd
    exact of_decide_eq_true hfwd
  | _ => trivial

end

/-! ## Runs -/

/-- Node `n` applies one command and compacts its log to it. -/
def compactSchedule (n : N) : List (Action N KeyEntry) :=
  [.applyTake n, .applyRun n, .compactStart n, .compactCheck n, .compactSave n true,
    .compactEnd n true]

/-- Node `n` sends its snapshot to `peer`, which installs it. -/
def installSchedule (n peer : N) (task : Nat) : List (Action N KeyEntry) :=
  [.sendStart n peer, .loadSnapshot task, .sampleTerm 0, .chunkHandle 0 .ok, .runInstaller peer,
    .renameSnapshot peer true, .installEnd peer true]

/-- Node `c` is caught up with a snapshot. -/
def catchUpSchedule (a b c : N) : List (Action N KeyEntry) :=
  [electionSchedule [a, b, c] 1 a [0] [2],
    [.submit a (keyOf "a" 1), .submitPersist 0 true, .submitCommit 0],
    appendSchedule a b 0 0, compactSchedule a, installSchedule a c 1].flatten

theorem cache_is_history_caughtUp :
    ∃ s : Cluster (Fin 3) KeyEntry (Nat × Keys) CRDTState,
      Reach (step (.complete 3 1) Codec.plain.callbacks) Forward
        (Cluster.init Codec.plain.callbacks) s ∧
      s.applying 2 = none ∧ (∀ j, s.snapMu 2 = some j → j.installs = none) ∧
      (s.node 2).lastApplied = 1 ∧
      ∃ h, Committed s.applied h ∧ h.length = (s.node 2).lastApplied ∧
        (∀ h', Committed s.applied h' → h'.length = (s.node 2).lastApplied → h' = h) ∧
        (s.app 2).keys = Codec.plain.replay h := by
  have hrun : (execute (step (.complete 3 1) Codec.plain.callbacks)
      (fun s a => commitsAsLeader s a && installsForward s a)
      (Cluster.init Codec.plain.callbacks : Cluster (Fin 3) KeyEntry (Nat × Keys) CRDTState)
      (catchUpSchedule 0 1 2)).map
      (fun s => ((s.applying 2).isNone, (s.snapMu 2).isNone, (s.node 2).lastApplied)) =
      some (true, true, 1) := by
    decide +kernel
  obtain ⟨s, hs, hobs⟩ := reach_observe (P := fun a => a.ioOk = true) (by decide +kernel)
    (fun _ _ => forward_of_checked) hrun
  obtain ⟨hap, hrest⟩ := Prod.mk.inj hobs
  obtain ⟨hmu, hlast⟩ := Prod.mk.inj hrest
  have hap := isNone_iff_eq_none.1 hap
  have hmu := isNone_iff_eq_none.1 hmu
  have hjob : ∀ j, s.snapMu 2 = some j → j.installs = none := fun j hj => by
    rw [hmu] at hj
    cases hj
  exact ⟨s, hs, hap, hjob, hlast, cache_is_history hs hap hjob⟩

/-- Node `c` has applied two commands, which node `a` does not know: the response is late.  Node `a`
takes node `c` for one that has nothing and sends it a snapshot of the first command. -/
def rolledBackSchedule (a b c : N) : List (Action N KeyEntry) :=
  [electionSchedule [a, b, c] 1 a [0] [2],
    [.submit a (keyOf "a" 1), .submitPersist 0 true, .submitCommit 0,
      .submit a (keyOf "b" 2), .submitPersist 1 true, .submitCommit 1],
    appendSchedule a b 0 0, [.sendStart a c, .sendAppend 1, .appendHandle 1 .ok],
    [.applyTake c, .applyRun c, .applyTake c, .applyRun c],
    compactSchedule a, installSchedule a c 2].flatten

/-- **A node that is past a snapshot is rolled back to it**, in a run that meets the conditions of
`state_machine_safety`: `lastApplied` says `2`, and the second command is not in the cache. -/
theorem cache_rolled_back :
    ∃ s : Cluster (Fin 3) KeyEntry (Nat × Keys) CRDTState,
      Reach (step (.complete 3 1) Codec.plain.callbacks) Steady
        (Cluster.init Codec.plain.callbacks) s ∧
      ∃ n h, s.applying n = none ∧ s.snapMu n = none ∧ Committed s.applied h ∧
        h.length = (s.node n).lastApplied ∧ (s.app n).keys ≠ Codec.plain.replay h := by
  have hrun : (execute (step (.complete 3 1) Codec.plain.callbacks) commitsAsLeader
      (Cluster.init Codec.plain.callbacks : Cluster (Fin 3) KeyEntry (Nat × Keys) CRDTState)
      (rolledBackSchedule 0 1 2)).map
      (fun s => ((s.applying 2).isNone && (s.snapMu 2).isNone &&
        ((s.app 2).keys.lookup ("hs", "b")).isNone, (s.node 2).lastApplied, s.applied)) =
      some (true, 2, [(0, ⟨1, 1, keyOf "a" 1⟩), (2, ⟨2, 1, keyOf "b" 2⟩),
        (2, ⟨1, 1, keyOf "a" 1⟩)]) := by
    decide +kernel
  obtain ⟨s, hs, hobs⟩ := reach_observe (P := fun a => a.ioOk = true) (by decide +kernel)
    (fun _ _ => steady_of_checked) hrun
  simp only [Prod.mk.injEq, Bool.and_eq_true, isNone_iff_eq_none] at hobs
  obtain ⟨⟨⟨hap, hmu⟩, hlost⟩, hlast, happ⟩ := hobs
  refine ⟨s, hs, 2, [⟨1, 1, keyOf "a" 1⟩, ⟨2, 1, keyOf "b" 2⟩], hap, hmu, ?_, hlast.symm, ?_⟩
  · rw [happ]
    intro k e he
    match k, he with
    | 0, he =>
      cases he
      exact ⟨rfl, 0, mem_cons_self⟩
    | 1, he =>
      cases he
      exact ⟨rfl, 2, mem_cons_of_mem _ mem_cons_self⟩
  · intro heq
    rw [heq] at hlost
    revert hlost
    decide +kernel

end MxKeys.KeyCache
