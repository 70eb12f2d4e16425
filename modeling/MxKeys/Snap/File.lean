/-
# MxKeys.Snap.File — the bytes of `raft.snapshot`.

A snapshot file is a header of 28 bytes and the payload: magic, index, term, length and CRC-32C.
`SaveSnapshot` writes it, `LoadSnapshotReader` checks it from end to end before it hands the payload
on.  What was saved is loaded again (`loadSnapshotReader_fileOf`).
-/
import MxKeys.Lib.Digest
import MxKeys.Raft.Handlers

namespace MxKeys.Snap

open MxKeys.Lib MxKeys.Lib.Digest MxKeys.Raft

/-- `snapshotMagic`. -/
def snapshotMagic : Bytes := [0x4D, 0x58, 0x4B, 0x53]

/-- `snapshotHeaderSize`. -/
def snapshotHeaderSize : Nat := 28

/-- `snapshotHeaderLenOffset`: where length and checksum stand in the header. -/
def snapshotHeaderLenOffset : Nat := 20

/-- The part of the header that is known when the first byte is written. -/
def headerStart (lastIndex lastTerm : Nat) : Bytes :=
  snapshotMagic ++ le64 lastIndex ++ le64 lastTerm

/-- The bytes of a snapshot file. -/
def fileOf (snap : Snapshot UInt8) : Bytes :=
  headerStart snap.lastIncludedIndex snap.lastIncludedTerm ++
    (le32 snap.data.length ++ le32 (crc32c snap.data).toNat) ++ snap.data

/-- `SaveSnapshot`: the bytes that are renamed into place, or nothing for a payload that is too
long. -/
def saveSnapshot (snap : Snapshot UInt8) : Option Bytes :=
  if snap.data.length ≤ maxSnapshotSize then some (fileOf snap) else none

/-- What `readSnapshotHeader` finds, with the bytes behind the header. -/
structure Header where
  lastIndex : Nat
  lastTerm : Nat
  size : Nat
  crc : Nat
  rest : Bytes

/-- The header, of which only the magic is checked here. -/
def readSnapshotHeader (file : Bytes) : Option Header :=
  if file.length < snapshotHeaderSize then none
  else if file.take 4 ≠ snapshotMagic then none
  else some {
    lastIndex := ofLe64 ((file.drop 4).take 8)
    lastTerm := ofLe64 ((file.drop 12).take 8)
    size := ofLe32 ((file.drop 20).take 4)
    crc := ofLe32 ((file.drop 24).take 4)
    rest := file.drop snapshotHeaderSize }

/-- `LoadSnapshotReader`: the file must be exactly header and payload, and the payload must have the
checksum of the header. -/
def loadSnapshotReader (file : Bytes) : Option (Snapshot UInt8) :=
  (readSnapshotHeader file).bind fun h =>
    if file.length ≠ snapshotHeaderSize + h.size then none
    else if (crc32c (h.rest.take h.size)).toNat ≠ h.crc then none
    else some ⟨h.lastIndex, h.lastTerm, h.rest⟩

@[simp] theorem length_headerStart (lastIndex lastTerm : Nat) :
    (headerStart lastIndex lastTerm).length = snapshotHeaderLenOffset := rfl

theorem length_fileOf (snap : Snapshot UInt8) :
    (fileOf snap).length = snapshotHeaderSize + snap.data.length := by
  simp only [fileOf, List.length_append, length_headerStart, length_le32, snapshotHeaderLenOffset,
    snapshotHeaderSize]

theorem drop_fileOf (snap : Snapshot UInt8) :
    (fileOf snap).drop snapshotHeaderSize = snap.data :=
  List.drop_left' rfl

/-- The counters of a snapshot are `uint64`. -/
def Snapshot.IsUint64 (snap : Snapshot UInt8) : Prop :=
  snap.lastIncludedIndex < 18446744073709551616 ∧ snap.lastIncludedTerm < 18446744073709551616

/-- The header of a snapshot file is read as it was written. -/
theorem readSnapshotHeader_fileOf {snap : Snapshot UInt8} (h : Snapshot.IsUint64 snap)
    (hlen : snap.data.length ≤ maxSnapshotSize) :
    readSnapshotHeader (fileOf snap) = some ⟨snap.lastIncludedIndex, snap.lastIncludedTerm,
      snap.data.length, (crc32c snap.data).toNat, snap.data⟩ := by
  have hsmall : snap.data.length < 4294967296 := Nat.lt_of_le_of_lt hlen (by decide)
  have hcrc : (crc32c snap.data).toNat < 4294967296 := (crc32c snap.data).toNat_lt
  have hindex : ((fileOf snap).drop 4).take 8 = le64 snap.lastIncludedIndex := rfl
  have hterm : ((fileOf snap).drop 12).take 8 = le64 snap.lastIncludedTerm := rfl
  have hsize : ((fileOf snap).drop 20).take 4 = le32 snap.data.length := rfl
  have hsum : ((fileOf snap).drop 24).take 4 = le32 (crc32c snap.data).toNat := rfl
  have hmagic : (fileOf snap).take 4 = snapshotMagic := rfl
  unfold readSnapshotHeader
  rw [if_neg (by rw [length_fileOf]; omega), if_neg (by rw [hmagic]; simp), hindex, hterm, hsize,
    hsum, drop_fileOf, ofLe64_le64 h.1, ofLe64_le64 h.2, ofLe32_le32 hsmall, ofLe32_le32 hcrc]

/-- **What was saved is loaded.** -/
theorem loadSnapshotReader_fileOf {snap : Snapshot UInt8} (h : Snapshot.IsUint64 snap)
    (hlen : snap.data.length ≤ maxSnapshotSize) :
    loadSnapshotReader (fileOf snap) = some snap := by
  unfold loadSnapshotReader
  rw [readSnapshotHeader_fileOf h hlen]
  show (if (fileOf snap).length ≠ snapshotHeaderSize + snap.data.length then none else
    if (crc32c (snap.data.take snap.data.length)).toNat ≠ (crc32c snap.data).toNat then none else
      some snap) = some snap
  rw [if_neg (by simp [length_fileOf]), List.take_length, if_neg (by simp)]

end MxKeys.Snap
