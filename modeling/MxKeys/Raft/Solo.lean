/-
# MxKeys.Raft.Solo — the snapshot writers of one node.

`CompactLog` and `handleInstallSnapshot` are the two writers of the snapshot file and of the
boundary in memory.  Each holds `snapMu` from its first section to its last and drops `n.mu` in
between, for the provider, the installer and the file.  `Solo` is one node with the holder of
`snapMu`, in an arbitrary environment: any request may arrive, any provider and any installer may
answer anything, every write may fail, and all other sections of the node run in between.

Two results.  `layout_kept`: the in-memory log stays numbered from the boundary on, as long as
`AppendEntries` requests are built from logs that are.  `snapshots_never_roll_back`: neither the
file nor the boundary goes back, and they are the same whenever `snapMu` is free.
-/
import MxKeys.Raft.Layout
import MxKeys.Raft.Restart

namespace MxKeys.Raft

open MxKeys.Lib
open Option

variable {N C B : Type*}

/-! ## The system -/

/-- A node and the holder of its `snapMu`. -/
structure Solo (N C B : Type*) where
  host : Host N C B
  snapMu : Option (SnapJob B)

/-- The sections that belong to a snapshot writer, and the crash. -/
def Input.ofSnapshotWriter : Input N C B → Bool
  | .chunk .. | .saveSnapshot .. | .finishInstall .. | .finishCompact .. | .crash .. => true
  | _ => false

/-- A section of the node, or the next section of a snapshot writer. -/
inductive SoloAction (N C B : Type*)
  | plain (a : Input N C B)
  | chunk (io : ChunkIo) (req : InstallSnapshotRequest N B)
  | runInstaller (ok : Bool)
  | renameSnapshot (ok : Bool)
  | installEnd (walOk : Bool)
  /-- The provider's payload and index, or its error. -/
  | compactStart (provided : Option (List B × Nat))
  | compactCheck
  | compactSave (ok : Bool)
  | compactEnd (walOk : Bool)

/-- A node that is up, with `snapMu` free. -/
def Solo.start (x : Node N C B) (now : Nat) : Solo N C B := ⟨⟨x, now, []⟩, none⟩

/-- Replace the node and the holder of `snapMu`. -/
def Solo.set (s : Solo N C B) (x : Node N C B) (job : Option (SnapJob B)) : Solo N C B :=
  ⟨s.host.setNode x, job⟩

variable [DecidableEq N]

/-- One step.  No stream waits for an answer here, so that a job has no call to name: it is `0`. -/
def Solo.step (cfg : Config N) (me : N) (s : Solo N C B) : SoloAction N C B → Option (Solo N C B)
  | .plain a =>
    if a.ofSnapshotWriter then none
    else (s.host.step cfg me a).map fun h => { s with host := h }
  | .chunk io req =>
    match s.snapMu with
    | some _ => none
    | none =>
      match handleInstallSnapshot cfg me s.host.clock io s.host.node req with
      | (x, .reply _) => some (s.set x none)
      | (x, .install data) =>
        some (s.set x (some (.install 0 req.lastIncludedIndex req.lastIncludedTerm data)))
  | .runInstaller ok =>
    match s.snapMu with
    | some (.install i index term data) =>
      some { s with snapMu := if ok then some (.installed i index term data) else none }
    | _ => none
  | .renameSnapshot ok =>
    match s.snapMu with
    | some (.installed i index term data) =>
      if cfg.diskOk me ok then
        let file := if cfg.stateDir me then some ⟨index, term, data⟩
          else s.host.node.snapshotFile
        some (s.set (s.host.node.setSnapshotFile file) (some (.renamed i index term data)))
      else some { s with snapMu := none }
    | _ => none
  | .installEnd walOk =>
    match s.snapMu with
    | some (.renamed _ index term _) =>
      let x := finishInstall s.host.node index term
      some (s.set (if walOk then x.walTruncateBefore (index + 1) else x) none)
    | _ => none
  | .compactStart provided =>
    match s.snapMu, cfg.stateDir me with
    | none, true => some { s with snapMu := (provided.map fun p => .provided p.1 p.2) }
    | _, _ => none
  | .compactCheck =>
    match s.snapMu with
    | some (.provided data appliedIdx) =>
      some { s with snapMu := ((compactValidate s.host.node appliedIdx).map
        fun term => .validated data appliedIdx term) }
    | _ => none
  | .compactSave ok =>
    match s.snapMu with
    | some (.validated data appliedIdx term) =>
      if ok then
        some (s.set (s.host.node.setSnapshotFile (some ⟨appliedIdx, term, data⟩))
          (some (.saved appliedIdx term)))
      else some { s with snapMu := none }
    | _ => none
  | .compactEnd walOk =>
    match s.snapMu with
    | some (.saved appliedIdx term) =>
      let x := compactFinish s.host.node appliedIdx term
      some (s.set (if walOk then x.walTruncateBefore (appliedIdx + 1) else x) none)
    | _ => none

variable {cfg : Config N} {me : N} {s s' t : Solo N C B}

/-- What a step does to the node and to `snapMu`, with the guard it was taken under. -/
inductive SoloStep (cfg : Config N) (me : N) (s : Solo N C B) :
    SoloAction N C B → Node N C B → Option (SnapJob B) → Prop
  | plain {a : Input N C B} {h : Host N C B} (ha : a.ofSnapshotWriter = false)
      (hs : s.host.step cfg me a = some h) : SoloStep cfg me s (.plain a) h.node s.snapMu
  | chunk {io : ChunkIo} {req : InstallSnapshotRequest N B} {x : Node N C B}
      {out : ChunkResult B} {job : Option (SnapJob B)} (hfree : s.snapMu = none)
      (hx : handleInstallSnapshot cfg me s.host.clock io s.host.node req = (x, out))
      (hjob : job = none ∨ ∃ data, out = .install data ∧
        job = some (.install 0 req.lastIncludedIndex req.lastIncludedTerm data)) :
      SoloStep cfg me s (.chunk io req) x job
  | installed {ok : Bool} {i index term : Nat} {data : List B} {job : Option (SnapJob B)}
      (hj : s.snapMu = some (.install i index term data))
      (hjob : job = none ∨ job = some (.installed i index term data)) :
      SoloStep cfg me s (.runInstaller ok) s.host.node job
  | renamed {ok : Bool} {i index term : Nat} {data : List B}
      (hj : s.snapMu = some (.installed i index term data)) {file : Option (Snapshot B)}
      (hfile : cfg.stateDir me = true → file = some ⟨index, term, data⟩) :
      SoloStep cfg me s (.renameSnapshot ok) (s.host.node.setSnapshotFile file)
        (some (.renamed i index term data))
  | renameFails {ok : Bool} {i index term : Nat} {data : List B}
      (hj : s.snapMu = some (.installed i index term data)) :
      SoloStep cfg me s (.renameSnapshot ok) s.host.node none
  | installEnd {walOk : Bool} {i index term : Nat} {data : List B}
      (hj : s.snapMu = some (.renamed i index term data)) (wal : List (LogEntry C)) :
      SoloStep cfg me s (.installEnd walOk) ((finishInstall s.host.node index term).setWal wal) none
  | provided {answer : Option (List B × Nat)} {job : Option (SnapJob B)} (hfree : s.snapMu = none)
      (hjob : ∀ j, job = some j → ∃ data index, j = .provided data index) :
      SoloStep cfg me s (.compactStart answer) s.host.node job
  | validated {data : List B} {index : Nat} (hj : s.snapMu = some (.provided data index)) :
      SoloStep cfg me s .compactCheck s.host.node
        ((compactValidate s.host.node index).map fun term => .validated data index term)
  | saved {ok : Bool} {data : List B} {index term : Nat}
      (hj : s.snapMu = some (.validated data index term)) :
      SoloStep cfg me s (.compactSave ok)
        (s.host.node.setSnapshotFile (some ⟨index, term, data⟩)) (some (.saved index term))
  | saveFails {ok : Bool} {data : List B} {index term : Nat}
      (hj : s.snapMu = some (.validated data index term)) :
      SoloStep cfg me s (.compactSave ok) s.host.node none
  | compactEnd {walOk : Bool} {index term : Nat} (hj : s.snapMu = some (.saved index term))
      (wal : List (LogEntry C)) :
      SoloStep cfg me s (.compactEnd walOk) ((compactFinish s.host.node index term).setWal wal) none

variable {a : SoloAction N C B}

theorem soloStep_of_step (hs : s.step cfg me a = some s') :
    SoloStep cfg me s a s'.host.node s'.snapMu := by
  cases a with simp only [Solo.step] at hs
  | plain a =>
    split_ifs at hs with ha
    obtain ⟨h, hh, rfl⟩ := map_eq_some_iff.1 hs
    exact .plain (by simpa using ha) hh
  | chunk io req =>
    split at hs
    · cases hs
    · split at hs
      · cases hs
        exact .chunk (by assumption) (by assumption) (.inl rfl)
      · cases hs
        exact .chunk (by assumption) (by assumption) (.inr ⟨_, rfl, rfl⟩)
  | runInstaller ok =>
    split at hs
    · cases hs
      refine .installed (by assumption) ?_
      cases ok
      · exact .inl rfl
      · exact .inr rfl
    · cases hs
  | renameSnapshot ok =>
    split at hs
    · split_ifs at hs with _ hdir
      · cases hs
        exact .renamed (by assumption) fun _ => rfl
      · cases hs
        exact .renamed (by assumption) fun h => absurd h hdir
      · cases hs
        exact .renameFails (by assumption)
    · cases hs
  | installEnd walOk =>
    split at hs
    · cases hs
      cases walOk
      · exact .installEnd (by assumption) s.host.node.wal
      · exact .installEnd (by assumption) _
    · cases hs
  | compactStart answer =>
    split at hs
    · cases hs
      refine .provided (by assumption) fun j hj => ?_
      obtain ⟨p, _, rfl⟩ := map_eq_some_iff.1 hj
      exact ⟨_, _, rfl⟩
    · cases hs
  | compactCheck =>
    split at hs
    · cases hs
      exact .validated (by assumption)
    · cases hs
  | compactSave ok =>
    split at hs
    · split_ifs at hs
      · cases hs
        exact .saved (by assumption)
      · cases hs
        exact .saveFails (by assumption)
    · cases hs
  | compactEnd walOk =>
    split at hs
    · cases hs
      cases walOk
      · exact .compactEnd (by assumption) (compactFinish s.host.node _ _).wal
      · exact .compactEnd (by assumption) _
    · cases hs

/-! ## The boundary -/

/-- What the snapshot writers own: the boundary in memory and the file. -/
def Node.snapPart (x : Node N C B) : Nat × Nat × Option (Snapshot B) :=
  (x.snapshotIndex, x.snapshotTerm, x.snapshotFile)

omit [DecidableEq N] in
theorem snapPart_observeTerm (x : Node N C B) (term : Nat) :
    (x.observeTerm term).snapPart = x.snapPart :=
  (congrArg Node.snapPart (restands_observeTerm x term) :)

omit [DecidableEq N] in
theorem snapPart_handleInstallSnapshot (cfg : Config N) (me : N) (now : Nat) (io : ChunkIo)
    (x : Node N C B) (req : InstallSnapshotRequest N B) :
    (handleInstallSnapshot cfg me now io x req).1.snapPart = x.snapPart := by
  rcases handleInstallSnapshot_eq cfg me now io x req with h | ⟨_, h⟩ <;> rw [h]
  rfl

/-- The sections outside the snapshot writers leave it alone. -/
theorem snapPart_plain {h h' : Host N C B} {a : Input N C B} (ha : a.ofSnapshotWriter = false)
    (hs : h.step cfg me a = some h') : h'.node.snapPart = h.node.snapPart := by
  replace hs := perform_of_step hs
  cases a with try cases hs
  | chunk | saveSnapshot | finishInstall | finishCompact | crash => cases ha
  | tick _ | campaign | persist _ | snapshotSent _ _ => rfl
  | requestVote req =>
    exact (congrArg Node.snapPart (restands_handleVoteRequest h.clock h.node req) :)
  | elected =>
    simp only [Host.perform] at hs
    split_ifs at hs
    cases hs
    rfl
  | response term => exact snapPart_observeTerm _ _
  | appendEntries io req =>
    show (handleAppendEntries cfg me h.clock io h.node req).1.snapPart = _
    obtain heq | ⟨_, _, _, heq⟩ := handleAppendEntries_eq cfg me h.clock io h.node req <;>
      rw [heq]
    rfl
  | appendReply peer req nextIdx resp =>
    show (appendEntriesReply cfg me h.node peer req nextIdx resp).snapPart = _
    obtain heq | ⟨_, _, _, heq⟩ := appendEntriesReply_eq cfg me h.node peer req nextIdx resp <;>
      rw [heq]
    · exact snapPart_observeTerm _ _
    · rfl
  | submit command =>
    obtain ⟨p, hp, rfl⟩ := map_eq_some_iff.1 hs
    unfold submitPublish at hp
    split_ifs at hp
    cases hp
    rfl
  | rollback entry len =>
    show (submitRollback h.node entry len).snapPart = _
    obtain ⟨_, heq⟩ | ⟨_, _, _, heq⟩ := submitRollback_eq h.node entry len <;> rw [heq]
    rfl
  | commit =>
    show (h.node.updateCommitIndex cfg me).snapPart = _
    obtain ⟨_, heq, _⟩ := updateCommitIndex_eq cfg me h.node
    rw [heq]
    rfl
  | apply =>
    obtain ⟨p, hp, rfl⟩ := map_eq_some_iff.1 hs
    unfold applyNext at hp
    split_ifs at hp
    cases hp
    rfl

/-! ## The layout of the log -/

/-- The window starts at the boundary, and entries are numbered from there on. -/
structure Node.LaidOut (x : Node N C B) : Prop where
  boundary : x.logOffset = x.snapshotIndex
  indexed : x.Indexed

variable {x y : Node N C B}

omit [DecidableEq N] in
theorem Node.LaidOut.of_logPart (hx : x.LaidOut) (h : y.logPart = x.logPart) :
    y.LaidOut := by
  obtain ⟨hidx, hsnap, hoff, _, _⟩ := indexed_of_logPart h hx.indexed
  exact ⟨by rw [hoff, hsnap, hx.boundary], hidx⟩

section

omit [DecidableEq N]

theorem Node.LaidOut.handleAppendEntries (hx : x.LaidOut) (hy : y.LaidOut) {leader : N}
    {nextIdx : Nat} {req : AppendEntriesRequest N C}
    (hreq : appendEntriesSnapshot cfg leader y me = some (req, nextIdx)) (now : Nat)
    (io : AppendIo) :
    (handleAppendEntries cfg me now io x req).1.LaidOut := by
  obtain ⟨_, _, hprev, _, _, hentries⟩ := appendEntriesSnapshot_spec hreq
  have hnum : ∀ k e, req.entries[k]? = some e → e.index = req.prevLogIndex + k + 1 := by
    intro k e he
    obtain ⟨hlt, hlog⟩ := hentries k e he
    have := hy.indexed _ e hlog
    omega
  obtain ⟨x', r, hx'⟩ : ∃ x' r, Raft.handleAppendEntries cfg me now io x req = (x', r) :=
    ⟨_, _, rfl⟩
  obtain ⟨hidx, hoff, hsnap, _, _⟩ := handleAppendEntries_indexed cfg me now io x req hx.indexed
    hx.boundary.symm.le hnum hx'
  rw [hx']
  exact ⟨by rw [hoff, hsnap, hx.boundary], hidx⟩

theorem Node.LaidOut.finishInstall (hx : x.LaidOut) {index : Nat} (hle : x.snapshotIndex ≤ index)
    (term : Nat) : (finishInstall x index term).LaidOut := by
  refine ⟨?_, finishInstall_indexed hx.indexed index term⟩
  show max x.logOffset index = index
  rw [hx.boundary]
  exact max_eq_right hle

theorem Node.LaidOut.compactFinish (hx : x.LaidOut) (index term : Nat) :
    (compactFinish x index term).LaidOut := by
  refine ⟨?_, compactFinish_indexed hx.indexed hx.boundary.symm index term⟩
  rcases lt_or_ge x.snapshotIndex index with hlt | hge
  · obtain ⟨_, hoff, hsnap, _⟩ := compactFinish_log hx.boundary.symm hlt term
    rw [hoff, hsnap]
  · unfold Raft.compactFinish
    rw [if_pos hge]
    exact hx.boundary

end

/-- `AppendEntries` requests are built by `appendEntriesSnapshot` of nodes that are laid out. -/
def BuiltFromLaidOut (cfg : Config N) (me : N) : Input N C B → Prop
  | .appendEntries _ req => ∃ (leader : N) (y : Node N C B) (nextIdx : Nat), y.LaidOut ∧
      appendEntriesSnapshot cfg leader y me = some (req, nextIdx)
  | _ => True

/-- The sections outside the snapshot writers. -/
theorem Node.LaidOut.plain {h h' : Host N C B} (hx : h.node.LaidOut) {a : Input N C B}
    (ha : a.ofSnapshotWriter = false) (hreq : BuiltFromLaidOut cfg me a)
    (hs : h.step cfg me a = some h') : h'.node.LaidOut := by
  replace hs := perform_of_step hs
  cases a with try cases hs
  | chunk | saveSnapshot | finishInstall | finishCompact | crash => cases ha
  | tick d => exact hx
  | campaign | persist _ | snapshotSent _ _ => exact hx.of_logPart rfl
  | requestVote req =>
    exact hx.of_logPart (congrArg Node.logPart (restands_handleVoteRequest h.clock h.node req) :)
  | elected =>
    simp only [Host.perform] at hs
    split_ifs at hs
    cases hs
    exact hx.of_logPart rfl
  | response term => exact hx.of_logPart (logPart_observeTerm _ _)
  | appendEntries io req =>
    obtain ⟨leader, y, nextIdx, hy, hbuilt⟩ := hreq
    exact hx.handleAppendEntries hy hbuilt h.clock io
  | appendReply peer req nextIdx resp => exact hx.of_logPart (logPart_appendEntriesReply ..)
  | submit command =>
    obtain ⟨p, hp, rfl⟩ := map_eq_some_iff.1 hs
    unfold submitPublish at hp
    split_ifs at hp
    cases hp
    exact ⟨hx.boundary, hx.indexed.pushEntry rfl⟩
  | rollback entry len =>
    show (submitRollback h.node entry len).LaidOut
    obtain ⟨_, heq⟩ | ⟨_, _, _, heq⟩ := submitRollback_eq h.node entry len
    · rw [heq]
      exact hx
    · rw [heq]
      exact ⟨hx.boundary, hx.indexed.dropLast⟩
  | commit => exact hx.of_logPart (logPart_updateCommitIndex ..)
  | apply =>
    obtain ⟨p, hp, rfl⟩ := map_eq_some_iff.1 hs
    unfold applyNext at hp
    split_ifs at hp
    cases hp
    exact hx.of_logPart rfl

/-- The invariant: a snapshot being installed lies above the boundary, since its handler holds
`snapMu`. -/
structure LayoutKept (x : Node N C B) (job : Option (SnapJob B)) : Prop where
  laidOut : x.LaidOut
  above : ∀ j L, job = some j → j.installs = some L → x.snapshotIndex ≤ L

/-- The allowed actions. -/
def SoloAction.BuiltFromLaidOut (cfg : Config N) (me : N) : SoloAction N C B → Prop
  | .plain a => Raft.BuiltFromLaidOut cfg me a
  | _ => True

omit [DecidableEq N] in
/-- No snapshot is being installed any more. -/
theorem LayoutKept.of_none (hx : x.LaidOut) : LayoutKept x none :=
  ⟨hx, nofun⟩

/-- **One step keeps the layout.** -/
theorem LayoutKept.step (h : LayoutKept s.host.node s.snapMu) (ha : a.BuiltFromLaidOut cfg me)
    {job : Option (SnapJob B)} (hs : SoloStep cfg me s a x job) : LayoutKept x job := by
  cases hs with
  | plain hw hstep =>
    refine ⟨h.laidOut.plain hw ha hstep, fun j L hj hL => ?_⟩
    rw [(Prod.mk.inj (snapPart_plain hw hstep)).1]
    exact h.above j L hj hL
  | @chunk io req x out job hfree hx hjob =>
    have hpart := logPart_handleInstallSnapshot cfg me s.host.clock io s.host.node req
    rw [hx] at hpart
    refine ⟨h.laidOut.of_logPart hpart, fun j L hj hL => ?_⟩
    obtain rfl | ⟨data, rfl, rfl⟩ := hjob
    · cases hj
    · cases hj
      cases hL
      rw [(indexed_of_logPart hpart h.laidOut.indexed).2.1]
      exact handleInstallSnapshot_above hx
  | installed hj hjob =>
    obtain rfl | rfl := hjob
    · exact .of_none h.laidOut
    · refine ⟨h.laidOut, fun j L hj' hL => h.above _ L hj ?_⟩
      cases hj'
      exact hL
  | renamed hj hfile =>
    refine ⟨h.laidOut.of_logPart rfl, fun j L hj' hL => h.above _ L hj ?_⟩
    cases hj'
    exact hL
  | renameFails hj => exact .of_none h.laidOut
  | installEnd hj wal =>
    exact .of_none ((h.laidOut.finishInstall (h.above _ _ hj rfl) _).of_logPart rfl)
  | provided hfree hjob =>
    refine ⟨h.laidOut, fun j L hj hL => ?_⟩
    obtain ⟨_, _, rfl⟩ := hjob j hj
    cases hL
  | validated hj =>
    refine ⟨h.laidOut, fun j L hj' hL => ?_⟩
    obtain ⟨_, _, rfl⟩ := map_eq_some_iff.1 hj'
    cases hL
  | saved hj =>
    refine ⟨h.laidOut.of_logPart rfl, fun j L hj' hL => ?_⟩
    cases hj'
    cases hL
  | saveFails hj => exact .of_none h.laidOut
  | compactEnd hj wal => exact .of_none ((h.laidOut.compactFinish _ _).of_logPart rfl)

/-- The term stored in the snapshot file, `0` without one. -/
def coveredTerm (file : Option (Snapshot B)) : Nat := (file.map Snapshot.lastIncludedTerm).getD 0

/-- The boundary in memory is the one of the file. -/
structure Node.Synced (x : Node N C B) : Prop where
  index : x.snapshotIndex = coveredBy x.snapshotFile
  term : x.snapshotTerm = coveredTerm x.snapshotFile

/-- The file holds a snapshot that the boundary in memory has not reached yet. -/
structure Node.FileAhead (x : Node N C B) (index term : Nat) : Prop where
  index_eq : coveredBy x.snapshotFile = index
  term_eq : coveredTerm x.snapshotFile = term
  le : x.snapshotIndex ≤ index

/-- The invariant.  Between the rename and the last section the file is ahead of the memory; at all
other times the two agree, and what a holder of `snapMu` is going to write lies above. -/
def SnapInv (x : Node N C B) : Option (SnapJob B) → Prop
  | none | some (.provided _ _) => x.Synced
  | some (.validated _ index _) => x.Synced ∧ x.snapshotIndex < index
  | some (.install _ index _ _) | some (.installed _ index _ _) =>
    x.Synced ∧ x.snapshotIndex ≤ index
  | some (.renamed _ index term _) => x.FileAhead index term
  | some (.saved index term) => x.FileAhead index term ∧ x.snapshotIndex < index

omit [DecidableEq N] in
theorem snapInv_of_snapPart (job : Option (SnapJob B)) (hx : SnapInv x job)
    (h : y.snapPart = x.snapPart) : SnapInv y job := by
  obtain ⟨hidx, hrest⟩ := Prod.mk.inj h
  obtain ⟨hterm, hfile⟩ := Prod.mk.inj hrest
  have hsync : x.Synced → y.Synced := by
    rintro ⟨h1, h2⟩
    exact ⟨by rw [hidx, hfile, h1], by rw [hterm, hfile, h2]⟩
  have hahead : ∀ i t, x.FileAhead i t → y.FileAhead i t := by
    rintro i t ⟨h1, h2, h3⟩
    exact ⟨by rw [hfile, h1], by rw [hfile, h2], by rw [hidx]; exact h3⟩
  match job, hx with
  | none, hx => exact hsync hx
  | some (.provided _ _), hx => exact hsync hx
  | some (.validated _ _ _), hx => exact ⟨hsync hx.1, by rw [hidx]; exact hx.2⟩
  | some (.install _ _ _ _), hx => exact ⟨hsync hx.1, by rw [hidx]; exact hx.2⟩
  | some (.installed _ _ _ _), hx => exact ⟨hsync hx.1, by rw [hidx]; exact hx.2⟩
  | some (.renamed _ _ _ _), hx => exact hahead _ _ hx
  | some (.saved _ _), hx => exact ⟨hahead _ _ hx.1, by rw [hidx]; exact hx.2⟩

/-- Neither the file nor the boundary in memory goes back. -/
structure Forward (x y : Node N C B) : Prop where
  file : coveredBy x.snapshotFile ≤ coveredBy y.snapshotFile
  memory : x.snapshotIndex ≤ y.snapshotIndex

section

omit [DecidableEq N]

theorem Forward.of_snapPart (h : y.snapPart = x.snapPart) : Forward x y := by
  obtain ⟨hidx, hrest⟩ := Prod.mk.inj h
  obtain ⟨_, hfile⟩ := Prod.mk.inj hrest
  exact ⟨by rw [hfile], by rw [hidx]⟩

theorem Forward.trans {z : Node N C B} (h : Forward x y) (h' : Forward y z) : Forward x z :=
  ⟨h.file.trans h'.file, le_trans h.memory h'.memory⟩

/-- A file above the boundary is put in place of one that is in step with it. -/
theorem Node.Synced.save (hx : x.Synced) (snap : Snapshot B)
    (hle : x.snapshotIndex ≤ snap.lastIncludedIndex) :
    (x.setSnapshotFile (some snap)).FileAhead snap.lastIncludedIndex snap.lastIncludedTerm ∧
      Forward x (x.setSnapshotFile (some snap)) :=
  ⟨⟨rfl, rfl, hle⟩, ⟨hx.index ▸ hle, le_refl _⟩⟩

/-- The boundary in memory catches up with the file. -/
theorem Node.FileAhead.catchUp {index term : Nat} (hx : x.FileAhead index term)
    (hfile : y.snapshotFile = x.snapshotFile) (hindex : y.snapshotIndex = index)
    (hterm : y.snapshotTerm = term) : y.Synced ∧ Forward x y := by
  refine ⟨⟨?_, ?_⟩, ⟨?_, ?_⟩⟩
  · rw [hindex, hfile, hx.index_eq]
  · rw [hterm, hfile, hx.term_eq]
  · rw [hfile]
  · rw [hindex]
    exact hx.le

end

/-- **One step of a snapshot writer**, or of anything else. -/
theorem SnapInv.step (hdir : cfg.stateDir me = true) (h : SnapInv s.host.node s.snapMu)
    {job : Option (SnapJob B)} (hs : SoloStep cfg me s a x job) :
    SnapInv x job ∧ Forward s.host.node x := by
  have hstay : Forward s.host.node s.host.node := ⟨le_refl _, le_refl _⟩
  cases hs with
  | plain hw hstep =>
    have hpart := snapPart_plain hw hstep
    exact ⟨snapInv_of_snapPart _ h hpart, .of_snapPart hpart⟩
  | @chunk io req x out job hfree hx hjob =>
    rw [hfree] at h
    have hpart := snapPart_handleInstallSnapshot cfg me s.host.clock io s.host.node req
    rw [hx] at hpart
    refine ⟨?_, .of_snapPart hpart⟩
    obtain rfl | ⟨data, rfl, rfl⟩ := hjob
    · exact snapInv_of_snapPart none h hpart
    · refine snapInv_of_snapPart (some (.install 0 _ _ _)) ⟨h, ?_⟩ hpart
      exact handleInstallSnapshot_above hx
  | installed hj hjob =>
    rw [hj] at h
    obtain rfl | rfl := hjob
    · exact ⟨h.1, hstay⟩
    · exact ⟨h, hstay⟩
  | renamed hj hfile =>
    rw [hj] at h
    rw [hfile hdir]
    exact h.1.save ⟨_, _, _⟩ h.2
  | renameFails hj =>
    rw [hj] at h
    exact ⟨h.1, hstay⟩
  | installEnd hj wal =>
    rw [hj] at h
    exact h.catchUp rfl rfl rfl
  | @provided answer job hfree hjob =>
    rw [hfree] at h
    refine ⟨?_, hstay⟩
    cases job with
    | none => exact h
    | some j =>
      obtain ⟨_, _, rfl⟩ := hjob j rfl
      exact h
  | @validated data index hj =>
    rw [hj] at h
    refine ⟨?_, hstay⟩
    cases hv : compactValidate s.host.node index with
    | none => exact h
    | some term => exact ⟨h, compactValidate_lt hv⟩
  | saved hj =>
    rw [hj] at h
    obtain ⟨hahead, hforward⟩ := h.1.save ⟨_, _, _⟩ h.2.le
    exact ⟨⟨hahead, h.2⟩, hforward⟩
  | saveFails hj =>
    rw [hj] at h
    exact ⟨h.1, hstay⟩
  | @compactEnd walOk index term hj wal =>
    rw [hj] at h
    -- the re-check of `CompactLog` never finds a newer boundary, since `snapMu` was held
    have hnew : ¬index ≤ s.host.node.snapshotIndex := not_le.2 h.2
    refine h.1.catchUp ?_ ?_ ?_ <;> simp only [compactFinish, if_neg hnew, Node.setWal]

theorem snapInv_reach (hdir : cfg.stateDir me = true) (h : SnapInv s.host.node s.snapMu)
    (ht : Reach (Solo.step cfg me) anyAction s t) :
    SnapInv t.host.node t.snapMu ∧ Forward s.host.node t.host.node := by
  refine ht.invariant (P := fun t => SnapInv t.host.node t.snapMu ∧
    Forward s.host.node t.host.node) ⟨h, ⟨le_refl _, le_refl _⟩⟩ ?_
  rintro u a v ⟨hu, hfw⟩ _ hv
  obtain ⟨hinv, hstep⟩ := hu.step hdir (soloStep_of_step hv)
  exact ⟨hinv, hfw.trans hstep⟩

omit [DecidableEq N] in
theorem loadFromDisk_synced {installOk : Bool} {now : Nat} {file : Option (Snapshot B)}
    {walEntries : List (LogEntry C)} {status : WalStatus} (hdir : cfg.stateDir me = true)
    (h : loadFromDisk cfg me installOk now file walEntries status = some x) : x.Synced := by
  obtain ⟨term, heq, _⟩ := foldl_loadRecord walEntries (loadBase now file : Node N C B)
  rw [loadFromDisk_some hdir h, heq]
  cases file <;> exact ⟨rfl, rfl⟩

/-- **Snapshots never roll back.**  On a node that came up through `LoadFromDisk`, from any state of
any run to any later one, neither the index in the snapshot file nor the boundary in memory
decreases; and whenever `snapMu` is free, index and term are the same in both. -/
theorem snapshots_never_roll_back {installOk : Bool} {now : Nat} {file : Option (Snapshot B)}
    {walEntries : List (LogEntry C)} {status : WalStatus} {x : Node N C B}
    (hdir : cfg.stateDir me = true)
    (hload : loadFromDisk cfg me installOk now file walEntries status = some x)
    (hs : Reach (Solo.step cfg me) anyAction (Solo.start x now) s)
    (ht : Reach (Solo.step cfg me) anyAction s t) :
    (coveredBy s.host.node.snapshotFile ≤ coveredBy t.host.node.snapshotFile ∧
      s.host.node.snapshotIndex ≤ t.host.node.snapshotIndex) ∧
    (t.snapMu = none → t.host.node.snapshotIndex = coveredBy t.host.node.snapshotFile ∧
      t.host.node.snapshotTerm = coveredTerm t.host.node.snapshotFile) := by
  have hstart : SnapInv (Solo.start x now).host.node (Solo.start x now).snapMu :=
    loadFromDisk_synced hdir hload
  obtain ⟨hinv, hforward⟩ := snapInv_reach hdir (snapInv_reach hdir hstart hs).1 ht
  refine ⟨⟨hforward.file, hforward.memory⟩, fun hfree => ?_⟩
  rw [hfree] at hinv
  exact ⟨hinv.index, hinv.term⟩

/-- A node with a snapshot of index `3` installs one of index `5`. -/
theorem snapshots_never_roll_back_installed :
    ∃ s t : Solo (Fin 3) Nat Nat,
      Reach (Solo.step (.complete 3 1) 0) anyAction s t ∧
      coveredBy s.host.node.snapshotFile = 3 ∧ coveredBy t.host.node.snapshotFile = 5 ∧
      s.host.node.snapshotIndex ≤ t.host.node.snapshotIndex := by
  have hload : loadFromDisk (.complete 3 1) (0 : Fin 3) true 0 (some ⟨3, 1, [9]⟩)
      ([] : List (LogEntry Nat)) .clean = some ((loadBase 0 (some ⟨3, 1, [9]⟩)).setWal []) := rfl
  have hrun : (execute (Solo.step (.complete 3 1) (0 : Fin 3)) (fun _ _ => true)
      (Solo.start ((loadBase 0 (some ⟨3, 1, [9]⟩)).setWal ([] : List (LogEntry Nat))) 0)
      [.chunk .ok ⟨2, 1, some 1, 5, 2, 0, true, [8]⟩, .runInstaller true,
        .renameSnapshot true]).map (fun s => coveredBy s.host.node.snapshotFile) = some 5 := by
    decide +kernel
  obtain ⟨t, ht, hfile⟩ := reach_observe_any hrun
  obtain ⟨⟨_, hmem⟩, _⟩ := snapshots_never_roll_back rfl hload .refl ht
  exact ⟨_, t, ht, rfl, hfile, hmem⟩

end MxKeys.Raft
