/-
# MxKeys.Merkle.Tree — the Merkle tree of the transparency log.

`zero/merkle/tree.go` and `hash.go`.  A tree keeps its leaves, all its levels and its root, and
builds the last two anew after every change (`rebuild`), so a tree is its leaves
(`Tree.eq_newFromHashes`), and its root is the Merkle tree hash of RFC 6962 (`root_eq_treeHash`).
SHA-256 is a parameter: what proofs about the tree say rests on the pairs it keeps apart, never on
its definition.
-/
import MxKeys.Lib.Digest
import MxKeys.Lib.HashTree
import MxKeys.Lib.Hex

namespace MxKeys.Merkle

open Lib Lib.HashTree

/-- `sha256.Size`. -/
def sha256Size : Nat := 32

/-- The errors of the package. -/
inductive MerkleError
  | emptyTree
  | invalidIndex
  | invalidProof
  deriving DecidableEq, Repr

variable (sha256 : Bytes → Bytes)

/-- `hashLeaf`: a leaf, after the byte `0x00`. -/
def hashLeaf (data : Bytes) : Bytes := sha256 (0x00 :: data)

/-- `hashNode`: two children, after the byte `0x01`. -/
def hashNode (left right : Bytes) : Bytes := sha256 (0x01 :: (left ++ right))

/-- `rebuild`: the levels and the root over leaves.  A nil root has no bytes. -/
def rebuild (leaves : List Bytes) : List (List Bytes) × Bytes :=
  if leaves = [] then ([], [])
  else (levels (hashNode sha256) leaves, (top (hashNode sha256) leaves).getD [])

/-- `Tree`. -/
structure Tree where
  leaves : List Bytes
  levels : List (List Bytes)
  root : Bytes
  built : (levels, root) = rebuild sha256 leaves

/-- `NewFromHashes`. -/
def newFromHashes (hashes : List Bytes) : Tree sha256 :=
  ⟨hashes, (rebuild sha256 hashes).1, (rebuild sha256 hashes).2, rfl⟩

/-- `New`. -/
def new : Tree sha256 := ⟨[], [], [], rfl⟩

variable {sha256}

/-- `AddHash`. -/
def Tree.addHash (t : Tree sha256) (hash : Bytes) : Tree sha256 :=
  newFromHashes sha256 (t.leaves ++ [hash])

/-- `Add`. -/
def Tree.add (t : Tree sha256) (data : Bytes) : Tree sha256 :=
  t.addHash (hashLeaf sha256 data)

/-- `RootHex`. -/
def Tree.rootHex (t : Tree sha256) : Text := if t.root = [] then [] else Hex.encode t.root

/-- `Size`. -/
def Tree.size (t : Tree sha256) : Nat := t.leaves.length

/-- **A tree is its leaves.** -/
theorem Tree.eq_newFromHashes (t : Tree sha256) : t = newFromHashes sha256 t.leaves := by
  obtain ⟨leaves, levels, root, built⟩ := t
  obtain ⟨rfl, rfl⟩ := Prod.mk.inj built
  rfl

@[simp] theorem newFromHashes_leaves (leaves : List Bytes) :
    (newFromHashes sha256 leaves).leaves = leaves := rfl

theorem newFromHashes_levels (sha256 : Bytes → Bytes) {leaves : List Bytes}
    (h : leaves ≠ []) :
    (newFromHashes sha256 leaves).levels = HashTree.levels (hashNode sha256) leaves := by
  show (rebuild sha256 leaves).1 = _
  rw [rebuild, if_neg h]

theorem newFromHashes_root (sha256 : Bytes → Bytes) {leaves : List Bytes}
    (h : leaves ≠ []) :
    top (hashNode sha256) leaves = some (newFromHashes sha256 leaves).root := by
  obtain ⟨d, hd⟩ := exists_top (hashNode sha256) h
  show _ = some (rebuild sha256 leaves).2
  rw [rebuild, if_neg h, hd]
  rfl

/-- **The root is the Merkle tree hash of RFC 6962**, in which `n > 1` leaves are split at the
largest power of two smaller than `n`. -/
theorem root_eq_treeHash (sha256 : Bytes → Bytes) {leaves : List Bytes}
    (h : leaves ≠ []) :
    some (newFromHashes sha256 leaves).root = treeHash (hashNode sha256) leaves := by
  rw [← newFromHashes_root sha256 h, top_eq_treeHash h]

theorem root_eq_treeHash_three :
    some (newFromHashes Digest.sha256 [[1], [2], [3]]).root =
      treeHash (hashNode Digest.sha256) [[1], [2], [3]] :=
  root_eq_treeHash Digest.sha256 (by decide)

theorem rootHex_eq (t : Tree sha256) : t.rootHex = Hex.encode t.root := by
  unfold Tree.rootHex
  split_ifs with h
  · rw [h]
    rfl
  · rfl

end MxKeys.Merkle
