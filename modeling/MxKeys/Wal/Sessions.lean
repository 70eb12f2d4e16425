/-
# MxKeys.Wal.Sessions — the log file across crashes.

The file of one node through any number of sessions. A session opens the log, reads it for
`LoadFromDisk`, and then appends: the batcher writes the records of a batch, syncs once and only
then lets `Append` return. A crash may come at any time and leaves everything that was synced and
some of the bytes written since.

A crash can leave part of a record at the end of the file. `LoadFromDisk` keeps the entries before
it and does not cut the file, so what the next session appends stands behind the torn record, where
no reader gets to: `acknowledged_torn_away`. In runs that append only to files that were read to
their end, every acknowledged entry stays readable: `acknowledged_readable`.
-/
import MxKeys.Lib.Run
import MxKeys.Wal.Format

namespace MxKeys.Wal

open MxKeys.Lib
open MxKeys.Raft (WalStatus)
open List Option

/-! ## The file and its sessions -/

/-- The log file and what the running process knows of it. -/
structure Disk where
  file : Bytes
  /-- How many bytes are on stable storage. -/
  synced : Nat
  /-- Whether a process has the log open. -/
  isOpen : Bool
  /-- How `ReadAll` ended when this session loaded the log. -/
  loaded : WalStatus
  /-- The entries of the batch that was written and not synced yet. -/
  batch : List Entry
  /-- Every entry whose `Append` has returned `nil`, in any session. -/
  acked : List Entry

/-- A node that was never started. -/
def Disk.empty : Disk := ⟨[], 0, false, .clean, [], []⟩

/-- What happens to a log over its sessions. -/
inductive Event where
  /-- `OpenWAL` and `LoadFromDisk`. -/
  | start
  /-- The batcher writes the record of an entry. -/
  | write (e : Entry)
  /-- `appendLocked` refuses an entry: the whole batch returns the error and is not synced. -/
  | refuse (e : Entry)
  /-- The batcher syncs and reports success to the batch. -/
  | sync
  /-- The first `kept` bytes of the file survive. -/
  | crash (kept : Nat)

/-- `ensureMagic`: the file after opening it, or nothing when it is not a log of this format. -/
def ensureMagic (file : Bytes) : Option Bytes :=
  if file = [] then some walMagic
  else if file.length < walMagic.length then none
  else if file.take walMagic.length = walMagic then some file
  else none

/-- One step; `none` if it cannot happen, which includes that the node does not start. -/
def Disk.step (key : Bytes) (s : Disk) : Event → Option Disk
  | .start =>
    if s.isOpen then none
    else do
      let file ← ensureMagic s.file
      -- `LoadFromDisk` goes on after `ErrWALCorrupt` and leaves the file as it is
      if (readAll key file).2 = .tampered then none
      else some { s with file := file, isOpen := true, loaded := (readAll key file).2, batch := [] }
  | .write e =>
    if s.isOpen ∧ IsUint64 e then do
      let written ← appendLocked key e
      some { s with file := s.file ++ written, batch := s.batch ++ [e] }
    else none
  | .refuse e =>
    if s.isOpen ∧ IsUint64 e ∧ (appendLocked key e).isNone then some { s with batch := [] }
    else none
  | .sync =>
    if s.isOpen then
      some { s with synced := s.file.length, batch := [], acked := s.acked ++ s.batch }
    else none
  | .crash kept =>
    if s.synced ≤ kept ∧ kept ≤ s.file.length then
      some { s with file := s.file.take kept, synced := kept, isOpen := false, batch := [] }
    else none

/-- Records are written only in a session whose log was read to its end, and none is nested to the
limit of the decoder. -/
def Unbroken (s : Disk) : Event → Prop
  | .write e => s.loaded = .clean ∧ e.command.depth < Json.maxNestingDepth
  | _ => True

/-! ## What stays readable -/

/-- What was acknowledged is read from the synced part alone; in a session that may write, the file
is read to its end and the batch stands in it as well. -/
structure DiskInv (key : Bytes) (s : Disk) : Prop where
  synced_le : s.synced ≤ s.file.length
  acked : s.acked.Sublist (readAll key (s.file.take s.synced)).1
  writing : s.isOpen → s.loaded = .clean → ∃ bytes, s.file = walMagic ++ bytes ∧
    (readAll key s.file).2 = .clean ∧ (s.acked ++ s.batch).Sublist (readAll key s.file).1
  broken : s.loaded ≠ .clean → s.batch = []

variable {key : Bytes} {s s' : Disk}

theorem diskInv_empty : DiskInv key Disk.empty := by
  constructor
  · exact le_rfl
  · exact nil_sublist _
  · nofun
  · intro _
    rfl

theorem ensureMagic_some {file file' : Bytes} (h : ensureMagic file = some file') :
    (file = [] ∧ file' = walMagic) ∨ (file' = file ∧ ∃ bytes, file = walMagic ++ bytes) := by
  unfold ensureMagic at h
  split_ifs at h with hnil hshort hmagic
  · exact .inl ⟨hnil, (some.inj h).symm⟩
  · refine .inr ⟨(some.inj h).symm, file.drop walMagic.length, ?_⟩
    nth_rewrite 1 [← take_append_drop walMagic.length file]
    rw [hmagic]

/-- What is read from the first bytes of a file is read from the file. -/
theorem readAll_take_sub (key file : Bytes) (n : Nat) :
    (readAll key (file.take n)).1 <+: (readAll key file).1 := by
  nth_rewrite 2 [← take_append_drop n file]
  exact readAll_sub _ _ _

theorem DiskInv.start (h : DiskInv key s) (hs : s.step key .start = some s') : DiskInv key s' := by
  simp only [Disk.step] at hs
  split at hs
  · cases hs
  simp only [bind, bind_eq_some_iff] at hs
  obtain ⟨file, hfile, hs⟩ := hs
  split at hs
  · cases hs
  cases hs
  -- the synced bytes are the same ones, or there are none
  have hacked : s.acked.Sublist (readAll key (file.take s.synced)).1 := by
    rcases ensureMagic_some hfile with ⟨hnil, rfl⟩ | ⟨rfl, -⟩
    · have hnone := h.acked
      rw [hnil] at hnone
      have hacked : s.acked = [] := by simpa [readAll] using hnone
      rw [hacked]
      exact nil_sublist _
    · exact h.acked
  constructor
  · rcases ensureMagic_some hfile with ⟨hnil, rfl⟩ | ⟨rfl, -⟩
    · have hsynced := h.synced_le
      rw [hnil] at hsynced
      exact le_trans hsynced (Nat.zero_le _)
    · exact h.synced_le
  · exact hacked
  · intro _ hclean
    rcases ensureMagic_some hfile with ⟨-, rfl⟩ | ⟨rfl, bytes, hbytes⟩
    · refine ⟨[], by simp, hclean, ?_⟩
      rw [append_nil]
      exact hacked.trans (readAll_take_sub key _ _).sublist
    · refine ⟨bytes, hbytes, hclean, ?_⟩
      rw [append_nil]
      exact hacked.trans (readAll_take_sub key _ _).sublist
  · intro _
    rfl

theorem DiskInv.write (h : DiskInv key s) {e : Entry} (hok : Unbroken s (.write e))
    (hs : s.step key (.write e) = some s') : DiskInv key s' := by
  simp only [Disk.step] at hs
  split at hs
  · rename_i hopen
    simp only [bind, bind_eq_some_iff] at hs
    obtain ⟨written, hw, hs⟩ := hs
    cases hs
    obtain ⟨bytes, hbytes, hclean, hread⟩ := h.writing hopen.1 hok.1
    have hadd : readAll key (s.file ++ written) = ((readAll key s.file).1 ++ [e], .clean) := by
      rw [hbytes] at hclean ⊢
      exact readAll_write ⟨hopen.2, hok.2⟩ hw hclean
    constructor
    · simpa using le_trans h.synced_le (Nat.le_add_right _ _)
    · show s.acked.Sublist (readAll key ((s.file ++ written).take s.synced)).1
      rw [take_append_of_le_length h.synced_le]
      exact h.acked
    · intro _ _
      refine ⟨bytes ++ written, by simp [hbytes], ?_, ?_⟩
      · show (readAll key (s.file ++ written)).2 = .clean
        rw [hadd]
      · show (s.acked ++ (s.batch ++ [e])).Sublist (readAll key (s.file ++ written)).1
        rw [hadd, ← append_assoc]
        exact hread.append (Sublist.refl _)
    · intro hbroken
      exact absurd hok.1 hbroken
  · cases hs

theorem DiskInv.sync (h : DiskInv key s) (hs : s.step key .sync = some s') : DiskInv key s' := by
  simp only [Disk.step] at hs
  split at hs
  · rename_i hopen
    cases hs
    -- with a broken log nothing was written, so nothing is acknowledged now
    have hread : (s.acked ++ s.batch).Sublist (readAll key s.file).1 := by
      by_cases hclean : s.loaded = .clean
      · obtain ⟨_, -, -, hread⟩ := h.writing hopen hclean
        exact hread
      · rw [h.broken hclean, append_nil]
        exact h.acked.trans (readAll_take_sub key _ _).sublist
    constructor
    · exact le_rfl
    · simpa using hread
    · intro hopen hclean
      obtain ⟨bytes, hbytes, hend, -⟩ := h.writing hopen hclean
      exact ⟨bytes, hbytes, hend, by simpa using hread⟩
    · intro _
      rfl
  · cases hs

theorem DiskInv.crash (h : DiskInv key s) {kept : Nat} (hs : s.step key (.crash kept) = some s') :
    DiskInv key s' := by
  simp only [Disk.step] at hs
  split at hs
  · rename_i hkept
    cases hs
    constructor
    · simp [hkept.2]
    · show s.acked.Sublist (readAll key ((s.file.take kept).take kept)).1
      rw [take_take, min_self]
      have hsub := readAll_take_sub key (s.file.take kept) s.synced
      rw [take_take, min_eq_left hkept.1] at hsub
      exact h.acked.trans hsub.sublist
    · nofun
    · intro _
      rfl
  · cases hs

theorem DiskInv.step (h : DiskInv key s) {a : Event} (hok : Unbroken s a)
    (hs : s.step key a = some s') : DiskInv key s' := by
  cases a with
  | start => exact h.start hs
  | write e => exact h.write hok hs
  | refuse e =>
    simp only [Disk.step] at hs
    split at hs
    · cases hs
      refine ⟨h.synced_le, h.acked, fun hopen hclean => ?_, fun _ => rfl⟩
      obtain ⟨bytes, hbytes, hend, hread⟩ := h.writing hopen hclean
      refine ⟨bytes, hbytes, hend, ?_⟩
      rw [append_nil]
      exact (sublist_append_left _ _).trans hread
    · cases hs
  | sync => exact h.sync hs
  | crash kept => exact h.crash hs

/-- **Acknowledged entries survive crashes**, in every run that appends only to a log that was read
to its end: `ReadAll` returns every entry whose `Append` returned `nil`. -/
theorem acknowledged_readable (hs : Reach (Disk.step key) Unbroken Disk.empty s) :
    ∀ e ∈ s.acked, e ∈ (readAll key s.file).1 := by
  have hinv : DiskInv key s := hs.invariant diskInv_empty fun _ _ _ h hok hu => h.step hok hu
  intro e he
  exact (hinv.acked.trans (readAll_take_sub key _ _).sublist).subset he

/-! ## Schedules -/

/-- `Unbroken`, evaluated. -/
def unbroken (s : Disk) : Event → Bool
  | .write e => decide (s.loaded = .clean ∧ e.command.depth < Json.maxNestingDepth)
  | _ => true

theorem unbroken_of_checked (s : Disk) (a : Event) (h : unbroken s a = true) : Unbroken s a := by
  cases a with
  | write e => simpa [unbroken, Unbroken] using h
  | _ => trivial

/-- The indices of the acknowledged entries and of the readable ones. -/
def Disk.indices (key : Bytes) (s : Disk) : List Nat × List Nat :=
  (s.acked.map (·.index), (readAll key s.file).1.map (·.index))

/-- A session that appends one entry, a crash that leaves the first byte of a record after it, and a
session that appends nothing. -/
def wholeSchedule : List Event :=
  [.start, .write ⟨1, 1, .null⟩, .sync, .write ⟨2, 1, .null⟩, .crash 88, .start]

theorem acknowledged_readable_whole :
    ∃ s, Reach (Disk.step [1]) Unbroken Disk.empty s ∧ s.acked.map (·.index) = [1] ∧
      ∀ e ∈ s.acked, e ∈ (readAll [1] s.file).1 := by
  have hrun : (execute (Disk.step [1]) unbroken Disk.empty wholeSchedule).map
      (fun s => s.acked.map (·.index)) = some [1] := by decide +kernel
  obtain ⟨s, hs, hacked⟩ := reach_observe (P := fun _ => True) (fun _ _ => trivial)
    (fun s a _ => unbroken_of_checked s a) hrun
  exact ⟨s, hs, hacked, acknowledged_readable hs⟩

/-- A crash leaves the first byte of a record; the next session appends an entry and crashes after
the sync. -/
def tornSchedule : List Event :=
  [.start, .write ⟨1, 1, .null⟩, .crash 13, .start, .write ⟨2, 1, .null⟩, .sync, .crash 88, .start]

/-- **A torn record hides what is appended behind it**: an acknowledged entry is gone in the next
session. -/
theorem acknowledged_torn_away :
    ∃ s, Reach (Disk.step [1]) anyAction Disk.empty s ∧ s.isOpen ∧
      ∃ e ∈ s.acked, e ∉ (readAll [1] s.file).1 := by
  have hrun : (execute (Disk.step [1]) (fun _ _ => true) Disk.empty tornSchedule).map
      (fun s => (s.isOpen, s.indices [1])) = some (true, [2], []) := by decide +kernel
  obtain ⟨s, hs, hobs⟩ := reach_observe_any hrun
  simp only [Disk.indices, Prod.mk.injEq, map_eq_nil_iff] at hobs
  obtain ⟨hopen, hacked, hread⟩ := hobs
  obtain ⟨e, he, -⟩ := map_eq_singleton_iff.1 hacked
  refine ⟨s, hs, hopen, e, by simp [he], ?_⟩
  simp [hread]

end MxKeys.Wal
