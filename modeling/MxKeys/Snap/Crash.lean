/-
# MxKeys.Snap.Crash — a crash in the middle of `CompactLog`.

`CompactLog` replaces two files, one after the other: the snapshot is written next to the old one
and renamed into place, then the write-ahead log is rewritten and renamed.
`compact_crash_consistent`: at whatever point the process dies, `LoadFromDisk` finds the old
snapshot or the new one, restores the application from it, and rebuilds exactly the entries above
it.  What carries this is that the log is cut only after the snapshot is in place, and that records
the snapshot covers are skipped on loading, so that a log that was not cut yet does no harm.
-/
import MxKeys.Raft.Solo
import MxKeys.Snap.File
import MxKeys.Wal.Rewrite

namespace MxKeys.Snap

open MxKeys.Lib MxKeys.Raft MxKeys.Wal
open List Option

variable {N S : Type*}

/-! ## Files -/

/-- The files of the state directory that `CompactLog` works on. -/
structure Files where
  snapshot : Option Bytes
  snapshotTmp : Option Bytes
  wal : Bytes
  walTmp : Option Bytes

/-- The file operations of `SaveSnapshot` and `rewriteLocked`.  A temporary file is synced before it
is renamed, and a rename is atomic. -/
inductive FileOp
  | writeSnapshotTmp (bytes : Bytes)
  | renameSnapshot
  | writeWalTmp (bytes : Bytes)
  | renameWal

/-- What an operation does to the files. -/
def FileOp.run (f : Files) : FileOp → Files
  | .writeSnapshotTmp bytes => { f with snapshotTmp := some bytes }
  | .renameSnapshot => { f with snapshot := f.snapshotTmp, snapshotTmp := none }
  | .writeWalTmp bytes => { f with walTmp := some bytes }
  | .renameWal => { f with wal := f.walTmp.getD f.wal, walTmp := none }

/-- What `CompactLog` does to the files, for the payload and index that the provider returned.  It
stops where a check fails: an index that is not above the snapshot and committed, a payload that is
too long, a log that cannot be rewritten. -/
def compactOps (key : Bytes) (x : Node N Json UInt8) (wal data : Bytes)
    (appliedIdx : Nat) : List FileOp :=
  match compactValidate x appliedIdx with
  | none => []
  | some lastTerm =>
    match saveSnapshot ⟨appliedIdx, lastTerm, data⟩ with
    | none => []
    | some bytes =>
      [.writeSnapshotTmp bytes, .renameSnapshot] ++
        match filterRewrite key wal (fun e => decide (appliedIdx + 1 ≤ e.index)) with
        | none => []
        | some file => [.writeWalTmp file, .renameWal]

/-- A crash after the first `k` operations.  Whatever is left in the temporary files may be torn. -/
def crashed (files : Files) (ops : List FileOp) (k : Nat)
    (snapshotTmp walTmp : Option Bytes) : Files :=
  { (ops.take k).foldl FileOp.run files with snapshotTmp := snapshotTmp, walTmp := walTmp }

/-! ## Loading -/

/-- The snapshot in the file; no file is no snapshot, and a corrupt one is an error. -/
def readSnapshot : Option Bytes → Option (Option (Snapshot UInt8))
  | none => some none
  | some bytes => (loadSnapshotReader bytes).map some

/-- The application restored from a snapshot: `snapshotInstaller` on its payload. -/
def appOf (install : S → Bytes → Nat → Nat → Option S) (app : S) :
    Option (Snapshot UInt8) → Option S
  | none => some app
  | some snap => install app snap.data snap.lastIncludedIndex snap.lastIncludedTerm

/-- `LoadFromDisk` on the files, for an application that starts as `app`. -/
def loadFiles (cfg : Config N) (me : N) (key : Bytes)
    (install : S → Bytes → Nat → Nat → Option S) (app : S) (now : Nat) (files : Files) :
    Option (Node N Json UInt8 × S) :=
  (readSnapshot files.snapshot).bind fun snap =>
    let installed := appOf install app snap
    (loadFromDisk cfg me installed.isSome now snap (readAll key files.wal).1
      (readAll key files.wal).2).bind fun x => installed.map fun a => (x, a)

/-- The node and its files: the snapshot file holds `old`, the node is laid out from there on, and
the records above the snapshot are its log. -/
structure OnDisk (key : Bytes) (x : Node N Json UInt8) (files : Files)
    (old : Option (Snapshot UInt8)) : Prop where
  snapshot : readSnapshot files.snapshot = some old
  index : x.snapshotIndex = coveredBy old
  term : x.snapshotTerm = coveredTerm old
  laidOut : x.LaidOut
  records : (readAll key files.wal).1.filter (fun e => decide (x.snapshotIndex < e.index)) = x.log
  genuine : (readAll key files.wal).2 ≠ .tampered

/-- The snapshots that may be found afterwards: the old one, or the one of this compaction. -/
def Candidate (x : Node N Json UInt8) (data : Bytes) (appliedIdx : Nat)
    (old snap : Option (Snapshot UInt8)) : Prop :=
  snap = old ∨ ∃ lastTerm, compactValidate x appliedIdx = some lastTerm ∧
    snap = some ⟨appliedIdx, lastTerm, data⟩

variable {cfg : Config N} {me : N} {key : Bytes} {x : Node N Json UInt8} {files : Files}
  {old : Option (Snapshot UInt8)} {data : Bytes} {appliedIdx : Nat} {term : Nat}

/-- The index that passes the check is the one of an entry of the log. -/
theorem compactValidate_entry (hx : x.LaidOut) (h : compactValidate x appliedIdx = some term) :
    x.snapshotIndex < appliedIdx ∧ ∃ e ∈ x.log, e.index = appliedIdx ∧ e.term = term := by
  have hlt := compactValidate_lt h
  refine ⟨hlt, ?_⟩
  unfold compactValidate at h
  split_ifs at h
  obtain ⟨hidx, _⟩ | ⟨e, he, hterm⟩ := termAt_some (Nat.zero_lt_of_lt hlt) h
  · omega
  · obtain ⟨hoff, _, hlog⟩ := entryAt_some he
    refine ⟨e, mem_of_getElem? hlog, ?_, hterm⟩
    rw [hx.indexed _ e hlog]
    omega

/-- The new snapshot has counters that fit, since its entry was read from the log. -/
theorem OnDisk.isUint64 (h : OnDisk key x files old)
    (hv : compactValidate x appliedIdx = some term) :
    Snapshot.IsUint64 ⟨appliedIdx, term, data⟩ := by
  obtain ⟨_, e, he, rfl, rfl⟩ := compactValidate_entry h.laidOut hv
  rw [← h.records] at he
  exact (readAll_readable key files.wal e (mem_of_mem_filter he)).1

/-! ## What survives -/

/-- The surviving files: which snapshot is in place, and that the log still holds what lies above.
-/
structure Survivors (key : Bytes) (x : Node N Json UInt8) (files : Files)
    (snap : Option (Snapshot UInt8)) : Prop where
  snapshot : readSnapshot files.snapshot = some snap
  records : (readAll key files.wal).1.filter (fun e => decide (coveredBy snap < e.index)) =
    x.log.filter (fun e => decide (coveredBy snap < e.index))
  genuine : (readAll key files.wal).2 ≠ .tampered

/-- Filtering twice, the second time above a higher index. -/
theorem filter_above (l : List Entry) {i j : Nat} (h : i ≤ j) :
    (l.filter fun e => decide (i < e.index)).filter (fun e => decide (j < e.index)) =
      l.filter fun e => decide (j < e.index) := by
  rw [List.filter_filter]
  refine filter_congr fun e _ => ?_
  by_cases hj : j < e.index
  · simp [hj, lt_of_le_of_lt h hj]
  · simp [hj]

variable {files' : Files} {snap : Option (Snapshot UInt8)}

/-- The log was not cut yet. -/
theorem OnDisk.survivors (h : OnDisk key x files old)
    (hsnap : readSnapshot files'.snapshot = some snap) (hwal : files'.wal = files.wal)
    (hle : coveredBy old ≤ coveredBy snap) :
    Survivors key x files' snap := by
  refine ⟨hsnap, ?_, by rw [hwal]; exact h.genuine⟩
  rw [hwal, ← h.records, filter_above _ (h.index ▸ hle)]

/-- The log was cut above the new snapshot. -/
theorem OnDisk.survivors_cut (h : OnDisk key x files old) {lastTerm : Nat}
    (hv : compactValidate x appliedIdx = some lastTerm)
    (hsnap : readSnapshot files'.snapshot = some (some ⟨appliedIdx, lastTerm, data⟩))
    (hwal : filterRewrite key files.wal (fun e => decide (appliedIdx + 1 ≤ e.index)) =
      some files'.wal) : Survivors key x files' (some ⟨appliedIdx, lastTerm, data⟩) := by
  have hread := readAll_filterRewrite hwal
  have hlt := compactValidate_lt hv
  refine ⟨hsnap, ?_, by rw [hread]; exact nofun⟩
  show (readAll key files'.wal).1.filter (fun e => decide (appliedIdx < e.index)) =
    x.log.filter (fun e => decide (appliedIdx < e.index))
  rw [hread, ← h.records, filter_above _ hlt.le]
  exact filter_above _ (le_refl appliedIdx)

/-- **Every crash point.** -/
theorem OnDisk.crashed (h : OnDisk key x files old) (data : Bytes) (appliedIdx k : Nat)
    (tmp₁ tmp₂ : Option Bytes) :
    ∃ snap, Candidate x data appliedIdx old snap ∧
      Survivors key x
        (crashed files (compactOps key x files.wal data appliedIdx) k tmp₁ tmp₂) snap := by
  have hold : ∀ files' : Files, files'.snapshot = files.snapshot → files'.wal = files.wal →
      ∃ snap, Candidate x data appliedIdx old snap ∧ Survivors key x files' snap := by
    intro files' hs hw
    exact ⟨old, .inl rfl, h.survivors (hs ▸ h.snapshot) hw le_rfl⟩
  unfold compactOps
  cases hv : compactValidate x appliedIdx with
  | none => exact hold _ (by simp [Snap.crashed]) (by simp [Snap.crashed])
  | some lastTerm =>
    have hlt := compactValidate_lt hv
    simp only [saveSnapshot]
    split
    · exact hold _ (by simp [Snap.crashed]) (by simp [Snap.crashed])
    · rename_i bytes hbytes
      split_ifs at hbytes with hlen
      cases hbytes
      have hnew : readSnapshot (some (fileOf ⟨appliedIdx, lastTerm, data⟩)) =
          some (some ⟨appliedIdx, lastTerm, data⟩) := by
        show (loadSnapshotReader _).map some = _
        rw [loadSnapshotReader_fileOf (h.isUint64 hv) hlen]
        rfl
      have hcand : Candidate x data appliedIdx old (some ⟨appliedIdx, lastTerm, data⟩) :=
        .inr ⟨lastTerm, hv, rfl⟩
      -- the new snapshot is in place, the log is as it was
      have hmixed : ∀ files' : Files,
          files'.snapshot = some (fileOf ⟨appliedIdx, lastTerm, data⟩) →
          files'.wal = files.wal →
          ∃ snap, Candidate x data appliedIdx old snap ∧ Survivors key x files' snap := by
        intro files' hs hw
        refine ⟨_, hcand, h.survivors (hs ▸ hnew) hw ?_⟩
        rw [← h.index]
        exact le_of_lt hlt
      match k with
      | 0 => exact hold _ rfl rfl
      | 1 => exact hold _ rfl rfl
      | k + 2 =>
        cases hcut : filterRewrite key files.wal
            (fun e => decide (appliedIdx + 1 ≤ e.index)) with
        | none =>
          exact hmixed _ (by simp [Snap.crashed, FileOp.run]) (by simp [Snap.crashed, FileOp.run])
        | some file =>
          match k with
          | 0 => exact hmixed _ rfl rfl
          | 1 => exact hmixed _ rfl rfl
          | k + 2 =>
            refine ⟨_, hcand, h.survivors_cut hv ?_ ?_⟩
            · rw [← hnew]
              simp [Snap.crashed, FileOp.run]
            · rw [hcut]
              simp [Snap.crashed, FileOp.run]

/-- What loading the survivors yields. -/
theorem Survivors.load (h : Survivors key x files snap) (hdir : cfg.stateDir me = true)
    (hinst : cfg.hasInstaller me = true) {install : S → Bytes → Nat → Nat → Option S}
    {app a : S} (ha : appOf install app snap = some a) (now : Nat) :
    ∃ y, loadFiles cfg me key install app now files = some (y, a) ∧
      y.snapshotIndex = coveredBy snap ∧ y.snapshotTerm = coveredTerm snap ∧
      y.log = x.log.filter (fun e => decide (coveredBy snap < e.index)) := by
  obtain ⟨y, hy⟩ : ∃ y : Node N Json UInt8,
      loadFromDisk cfg me (appOf install app snap).isSome now snap (readAll key files.wal).1
        (readAll key files.wal).2 = some y := by
    unfold loadFromDisk
    rw [if_neg (by simp [hdir]), if_neg (by simp [hinst]), if_neg h.genuine,
      if_neg (by simp [ha])]
    exact ⟨_, rfl⟩
  have hboundary : y.snapshotIndex = coveredBy snap ∧ y.snapshotTerm = coveredTerm snap := by
    obtain ⟨term, heq, _⟩ := foldl_loadRecord (readAll key files.wal).1
      (loadBase now snap : Node N Json UInt8)
    rw [loadFromDisk_some hdir hy, heq]
    cases snap <;> exact ⟨rfl, rfl⟩
  refine ⟨y, ?_, hboundary.1, hboundary.2, ?_⟩
  · unfold loadFiles
    rw [h.snapshot]
    dsimp only [bind_some]
    rw [hy, ha]
    rfl
  · rw [(loadFromDisk_log hdir hy).1, h.records]

/-- **`CompactLog` is crash consistent.**  After a crash between any two of its file operations,
`LoadFromDisk` succeeds with the old snapshot or the new one: index and term are that snapshot's,
the application is the one restored from it, and the log is made of the entries above it. -/
theorem compact_crash_consistent (cfg : Config N) (me : N) (hdir : cfg.stateDir me = true)
    (hinst : cfg.hasInstaller me = true) (h : OnDisk key x files old) (data : Bytes)
    (appliedIdx : Nat) (install : S → Bytes → Nat → Nat → Option S) (app : S)
    (haccepts : ∀ snap, Candidate x data appliedIdx old snap → (appOf install app snap).isSome)
    (k : Nat) (tmp₁ tmp₂ : Option Bytes) (now : Nat) :
    ∃ snap y a, Candidate x data appliedIdx old snap ∧
      loadFiles cfg me key install app now
        (crashed files (compactOps key x files.wal data appliedIdx) k tmp₁ tmp₂) = some (y, a) ∧
      y.snapshotIndex = coveredBy snap ∧ y.snapshotTerm = coveredTerm snap ∧
      appOf install app snap = some a ∧
      y.log = x.log.filter (fun e => decide (coveredBy snap < e.index)) := by
  obtain ⟨snap, hcand, hsurvive⟩ := h.crashed data appliedIdx k tmp₁ tmp₂
  obtain ⟨a, ha⟩ := isSome_iff_exists.1 (haccepts snap hcand)
  obtain ⟨y, hload, hindex, hterm, hlog⟩ := hsurvive.load hdir hinst ha now
  exact ⟨snap, y, a, hcand, hload, hindex, hterm, ha, hlog⟩

/-- A node whose two entries are committed. -/
def twoEntries : Node (Fin 3) Json UInt8 :=
  { newNode 0 with log := [⟨1, 1, .null⟩, ⟨2, 1, .null⟩], commitIndex := 2 }

/-- It compacts its first entry and crashes between the two renames. -/
theorem compact_crash_consistent_twoEntries :
    ∃ files, OnDisk [1] twoEntries files none ∧
      ∃ snap y a, Candidate twoEntries [7] 1 none snap ∧
        loadFiles (.complete 3 1) 0 [1] (fun _ data _ _ => some data) [] 0
          (crashed files (compactOps [1] twoEntries files.wal [7] 1) 2 none none) = some (y, a) ∧
        y.snapshotIndex = coveredBy snap ∧ y.snapshotTerm = coveredTerm snap ∧
        y.log = twoEntries.log.filter (fun e => decide (coveredBy snap < e.index)) := by
  obtain ⟨wal, hwal⟩ := isSome_iff_exists.mp
    (show (rewriteLocked [1] twoEntries.log).isSome = true by decide +kernel)
  have hreadable : ∀ e ∈ twoEntries.log, Readable e := by
    simp only [twoEntries, forall_mem_cons]
    exact ⟨readable_null (by decide), readable_null (by decide), fun _ h => absurd h not_mem_nil⟩
  have hread := readAll_rewriteLocked hreadable hwal
  have hdisk : OnDisk [1] twoEntries ⟨none, none, wal, none⟩ none := by
    refine ⟨rfl, rfl, rfl, ⟨rfl, fun k e he => ?_⟩, ?_, ?_⟩
    · match k, he with
      | 0, he => cases he; rfl
      | 1, he => cases he; rfl
    · rw [hread]
      rfl
    · rw [hread]
      exact nofun
  obtain ⟨snap, y, a, hcand, hload, hindex, hterm, _, hlog⟩ :=
    compact_crash_consistent (.complete 3 1) 0 rfl rfl hdisk [7] 1 (fun _ data _ _ => some data) []
      (fun snap _ => by cases snap <;> rfl) 2 none none 0
  exact ⟨_, hdisk, snap, y, a, hcand, hload, hindex, hterm, hlog⟩

end MxKeys.Snap
