/-
# MxKeys.Merkle.Consistency — proofs that an older tree is a prefix of a newer one.

`zero/merkle/consistency.go`.  The prover walks the levels of the newer tree and collects boundary
nodes.  The verifier is the one of RFC 6962: it walks the bits of both sizes and rebuilds both roots
from the path.

The verifier is sound (`consistency_sound`): each step of the walk undoes one level of both trees,
and the roots fix what stood on every level below them.  SHA-256 only has to keep apart the pairs
that are hashed in the two trees and by the verifier.
-/
import MxKeys.Merkle.Tree

namespace MxKeys.Merkle

open Lib Lib.HashTree
open List Option

/-! ## The prover -/

/-- `ConsistencyProof`. -/
structure ConsistencyProof where
  oldSize : Int
  newSize : Int
  oldRoot : Text
  newRoot : Text
  proofPath : List Text

/-- The node a round of `consistencyPath` takes from its level. -/
def boundaryNode (levelNodes : List Bytes) (subM : Nat) : Option Bytes :=
  if subM < levelNodes.length ∧ subM % 2 = 0 ∧ subM + 1 ≤ levelNodes.length then
    if subM + 1 < levelNodes.length then levelNodes[subM + 1]? else levelNodes[subM]?
  else none

/-- The loop of `consistencyPath`, which stops below the last level. -/
def boundaryNodes : List (List Bytes) → Nat → Nat → List Bytes
  | levelNodes :: next :: levels, subM, subN =>
    if subM < subN then
      (boundaryNode levelNodes subM).toList ++
        boundaryNodes (next :: levels) ((subM + 1) / 2) ((subN + 1) / 2)
    else []
  | _, _, _ => []

variable (sha256 : Bytes → Bytes)

/-- `consistencyPath`. -/
def consistencyPath (m n : Nat) (levels : List (List Bytes)) : List Text :=
  if m = n ∨ levels = [] then []
  else
    (newFromHashes sha256 ((levels.headD []).take m)).rootHex ::
      (boundaryNodes levels m n).map Hex.encode

variable {sha256}

/-- `GetConsistencyProof`. -/
def Tree.getConsistencyProof (t : Tree sha256) (oldSize : Int) :
    Except MerkleError ConsistencyProof :=
  if oldSize ≤ 0 ∨ t.leaves.length < oldSize then .error .invalidIndex
  else .ok {
    oldSize
    newSize := t.leaves.length
    oldRoot := (newFromHashes sha256 (t.leaves.take oldSize.toNat)).rootHex
    newRoot := Hex.encode t.root
    proofPath := consistencyPath sha256 oldSize.toNat t.leaves.length t.levels }

/-! ## The verifier -/

/-- A hash as the verifiers read it: hexadecimal, of the size of a digest. -/
def decodeHash (s : Text) : Option Bytes :=
  (Hex.decode s).filter fun b => b.length = sha256Size

/-- The first loop: shift both numbers while the first is odd. -/
def shiftOnes (fn sn : Nat) : Nat × Nat :=
  if fn % 2 = 1 then shiftOnes (fn / 2) (sn / 2) else (fn, sn)
termination_by fn

/-- The inner loop: shift both numbers while the first is even and not zero. -/
def shiftZeros (fn sn : Nat) : Nat × Nat :=
  if fn ≠ 0 ∧ fn % 2 = 0 then shiftZeros (fn / 2) (sn / 2) else (fn, sn)
termination_by fn

variable (sha256)

/-- The loop over the path: both roots, unless the walk ends too early or too late. -/
def walk : List Bytes → Nat → Nat → Bytes → Bytes →
    Option (Bytes × Bytes)
  | [], _, sn, fr, sr => if sn ≠ 0 then none else some (fr, sr)
  | c :: path, fn, sn, fr, sr =>
    if sn = 0 then none
    else if fn % 2 = 1 ∨ fn = sn then
      walk path ((shiftZeros fn sn).1 / 2) ((shiftZeros fn sn).2 / 2)
        (hashNode sha256 c fr) (hashNode sha256 c sr)
    else walk path (fn / 2) (sn / 2) fr (hashNode sha256 sr c)

/-- The pairs hashed by the loop. -/
def walkPairs : List Bytes → Nat → Nat → Bytes → Bytes →
    List (Bytes × Bytes)
  | [], _, _, _, _ => []
  | c :: path, fn, sn, fr, sr =>
    if sn = 0 then []
    else if fn % 2 = 1 ∨ fn = sn then
      (c, fr) :: (c, sr) :: walkPairs path ((shiftZeros fn sn).1 / 2) ((shiftZeros fn sn).2 / 2)
        (hashNode sha256 c fr) (hashNode sha256 c sr)
    else (sr, c) :: walkPairs path (fn / 2) (sn / 2) fr (hashNode sha256 sr c)

/-- Both roots rebuilt from a path that starts with `first`. -/
def rebuildRoots (oldSize newSize : Nat) (first : Bytes) (path : List Bytes) :
    Option (Bytes × Bytes) :=
  let shifted := shiftOnes (oldSize - 1) (newSize - 1)
  walk sha256 path shifted.1 shifted.2 first first

/-- `VerifyConsistencyProof`. -/
def verifyConsistencyProof : Option ConsistencyProof → Except MerkleError Bool
  | none => .error .invalidProof
  | some proof =>
    if proof.oldSize ≤ 0 ∨ proof.newSize < proof.oldSize then .error .invalidProof
    else if proof.oldSize = proof.newSize then
      .ok (proof.oldRoot = proof.newRoot ∧ proof.proofPath = [])
    else
      match decodeHash proof.oldRoot, decodeHash proof.newRoot,
        proof.proofPath.mapM decodeHash with
      | some oldRoot, some newRoot, some (first :: path) =>
        match rebuildRoots sha256 proof.oldSize.toNat proof.newSize.toNat first path with
        | none => .ok false
        | some (fr, sr) => .ok (fr = oldRoot ∧ sr = newRoot)
      | _, _, _ => .error .invalidProof

/-- When a proof between trees of different sizes is accepted. -/
structure Accepted (proof : ConsistencyProof) (oldRoot newRoot first : Bytes)
    (path : List Bytes) : Prop where
  old_read : decodeHash proof.oldRoot = some oldRoot
  new_read : decodeHash proof.newRoot = some newRoot
  path_read : proof.proofPath.mapM decodeHash = some (first :: path)
  rebuilt : rebuildRoots sha256 proof.oldSize.toNat proof.newSize.toNat first path =
    some (oldRoot, newRoot)

theorem verifyConsistencyProof_iff {proof : ConsistencyProof} (hpos : 0 < proof.oldSize)
    (hle : proof.oldSize ≤ proof.newSize) :
    verifyConsistencyProof sha256 (some proof) = .ok true ↔
      if proof.oldSize = proof.newSize then proof.oldRoot = proof.newRoot ∧ proof.proofPath = []
      else ∃ oldRoot newRoot first path, Accepted sha256 proof oldRoot newRoot first path := by
  rw [verifyConsistencyProof, if_neg (by omega)]
  split_ifs with hsize
  · rw [Except.ok.injEq, decide_eq_true_iff]
  constructor
  · intro h
    split at h
    · next oldRoot newRoot first path hold hnew hpath =>
      split at h
      · cases h
      · next fr sr hroots =>
        rw [Except.ok.injEq, decide_eq_true_iff] at h
        obtain ⟨rfl, rfl⟩ := h
        exact ⟨_, _, first, path, hold, hnew, hpath, hroots⟩
    · cases h
  · rintro ⟨oldRoot, newRoot, first, path, hold, hnew, hpath, hroots⟩
    simp only [hold, hnew, hpath, hroots, and_self, decide_true]

/-! ## Soundness -/

section Soundness

variable {sha256} {pairs : Set (Bytes × Bytes)}

/-- A level of both trees: in the old one `x` is the last node, in the new one `y` stands in its
place. -/
structure Fronts (sha256 : Bytes → Bytes) (pairs : Set (Bytes × Bytes))
    (r r' : Bytes) (fn sn : Nat) (olds : List Bytes) (x : Bytes)
    (news : List Bytes) (y : Bytes) (more : List Bytes) : Prop where
  length_olds : olds.length = fn
  length_news : news.length = fn
  length_more : fn + more.length = sn
  old : Commits (hashNode sha256) pairs (olds ++ [x]) r
  new : Commits (hashNode sha256) pairs (news ++ y :: more) r'

variable {r r' : Bytes} {fn sn : Nat} {olds news more : List Bytes} {x y : Bytes}

section Fronts

variable (hsep : Separates (hashNode sha256) pairs)
  (h : Fronts sha256 pairs r r' fn sn olds x news y more)
include hsep h

/-- Up a level where the last old node has a left neighbour. -/
theorem Fronts.up_odd (hodd : fn % 2 = 1) :
    ∃ olds' a news' b, olds = olds' ++ [a] ∧ news = news' ++ [b] ∧ (a, x) ∈ pairs ∧ (b, y) ∈ pairs ∧
      Fronts sha256 pairs r r' (fn / 2) (sn / 2) (pairUp (hashNode sha256) olds')
        (hashNode sha256 a x) (pairUp (hashNode sha256) news') (hashNode sha256 b y)
        (pairUp (hashNode sha256) more) ∧
      (pairUp (hashNode sha256) olds' = pairUp (hashNode sha256) news' → olds' = news') := by
  obtain ⟨holds, hnews, hmore, hold, hnew⟩ := h
  obtain ⟨olds', a, rfl⟩ : ∃ olds' a, olds = olds' ++ [a] :=
    ⟨_, _, (dropLast_append_getLast (length_pos_iff.1 (by omega))).symm⟩
  obtain ⟨news', b, rfl⟩ : ∃ news' b, news = news' ++ [b] :=
    ⟨_, _, (dropLast_append_getLast (length_pos_iff.1 (by omega))).symm⟩
  rw [length_append, length_singleton] at holds hnews
  rw [append_assoc] at hold hnew
  obtain ⟨hold, holds_mem, hax⟩ := hold.up_append (by omega)
  obtain ⟨hnew, hnews_mem, hby⟩ := hnew.up_append (by omega)
  refine ⟨olds', a, news', b, rfl, rfl, hax _ mem_cons_self, hby _ mem_cons_self,
    ⟨?_, ?_, ?_, hold, hnew⟩, eq_of_pairUp_eq _ hsep (by omega) holds_mem hnews_mem⟩
  · rw [length_pairUp]
    omega
  · rw [length_pairUp]
    omega
  · rw [length_pairUp]
    omega

/-- Up a level where the last old node has no neighbour.  What stands in its place in the new tree
is joined with the node on its right, or moves up as well. -/
theorem Fronts.up_even (heven : fn % 2 = 0) :
    ∃ y' more', pairUp (hashNode sha256) (y :: more) = y' :: more' ∧
      (∀ p ∈ levelPairs (y :: more), p ∈ pairs) ∧
      Fronts sha256 pairs r r' (fn / 2) (sn / 2) (pairUp (hashNode sha256) olds) x
        (pairUp (hashNode sha256) news) y' more' ∧
      (pairUp (hashNode sha256) olds = pairUp (hashNode sha256) news → olds = news) := by
  obtain ⟨holds, hnews, hmore, hold, hnew⟩ := h
  obtain ⟨hold, holds_mem, -⟩ := hold.up_append (by omega)
  obtain ⟨hnew, hnews_mem, hright⟩ := hnew.up_append (by omega)
  obtain ⟨y', more', hup⟩ :=
    exists_cons_of_ne_nil (pairUp_ne_nil (hashNode sha256) (cons_ne_nil y more))
  have hlen := length_pairUp (hashNode sha256) (y :: more)
  rw [hup] at hlen hnew
  rw [length_cons, length_cons] at hlen
  refine ⟨y', more', hup, hright, ⟨?_, ?_, ?_, hold, hnew⟩,
    eq_of_pairUp_eq _ hsep (by omega) holds_mem hnews_mem⟩
  · rw [length_pairUp]
    omega
  · rw [length_pairUp]
    omega
  · omega

/-- The inner loop climbs the levels on which the last node of both trees has no neighbour. -/
theorem Fronts.shiftZeros (hsn : sn ≠ 0) (hlast : fn % 2 = 1 ∨ fn = sn) :
    (Merkle.shiftZeros fn sn).1 % 2 = 1 ∧ ∃ olds' news' more',
      Fronts sha256 pairs r r' (Merkle.shiftZeros fn sn).1 (Merkle.shiftZeros fn sn).2 olds' x
        news' y more' ∧ (olds' = news' → olds = news) := by
  fun_induction Merkle.shiftZeros fn sn generalizing olds news more with
  | case1 fn sn heven ih =>
    obtain rfl : fn = sn := by omega
    obtain rfl : more = [] := length_eq_zero_iff.1 (by have := h.length_more; omega)
    obtain ⟨y', more', hup, -, hfronts, hback⟩ := h.up_even hsep heven.2
    obtain ⟨rfl, rfl⟩ := List.cons.inj hup
    obtain ⟨hodd, olds', news', more', hfronts', hback'⟩ := ih hfronts (by omega) (.inr rfl)
    exact ⟨hodd, olds', news', more', hfronts', fun heq => hback (hback' heq)⟩
  | case2 fn sn hstop =>
    exact ⟨by omega, olds, news, more, h, id⟩

/-- **The walk undoes the levels**: when it ends in the roots of both trees, it began with the nodes
of both fronts, and what stands before them is the same. -/
theorem Fronts.walk {path : List Bytes} {fr sr : Bytes}
    (hpairs : ∀ p ∈ walkPairs sha256 path fn sn fr sr, p ∈ pairs)
    (hwalk : Merkle.walk sha256 path fn sn fr sr = some (r, r')) :
    fr = x ∧ sr = y ∧ olds = news := by
  fun_induction Merkle.walk sha256 path fn sn fr sr generalizing olds x news y more with
  | case1 => cases hwalk
  | case2 fn sn fr sr hsn =>
    -- the walk is over: both fronts are the roots
    obtain ⟨holds, hnews, hmore, hold, hnew⟩ := h
    obtain rfl : olds = [] := length_eq_zero_iff.1 (by omega)
    obtain rfl : news = [] := length_eq_zero_iff.1 (by omega)
    obtain rfl : more = [] := length_eq_zero_iff.1 (by omega)
    cases hwalk
    exact ⟨(some.inj ((top_singleton x).symm.trans hold.root)).symm,
      (some.inj ((top_singleton y).symm.trans hnew.root)).symm, rfl⟩
  | case3 => cases hwalk
  | case4 c path fn sn fr sr hsn hlast ih =>
    rw [walkPairs, if_neg hsn, if_pos hlast] at hpairs
    obtain ⟨hodd, olds', news', more', hfronts, hback⟩ := h.shiftZeros hsep hsn hlast
    obtain ⟨olds'', a, news'', b, rfl, rfl, hax, hby, hup, hlevel⟩ := hfronts.up_odd hsep hodd
    obtain ⟨hfr, hsr, heq⟩ := ih hup
      (fun p hp => hpairs p (mem_cons_of_mem _ (mem_cons_of_mem _ hp))) hwalk
    obtain ⟨rfl, rfl⟩ := Prod.mk.inj (hsep (hpairs _ mem_cons_self) hax hfr)
    obtain ⟨rfl, rfl⟩ := Prod.mk.inj
      (hsep (hpairs _ (mem_cons_of_mem _ mem_cons_self)) hby hsr)
    exact ⟨rfl, rfl, hback (by rw [hlevel heq])⟩
  | case5 c path fn sn fr sr hsn hlast ih =>
    rw [walkPairs, if_neg hsn, if_neg hlast] at hpairs
    obtain ⟨y', more', hup, hright, hfronts, hlevel⟩ := h.up_even hsep (by omega)
    -- the old front is not the last node of the new level
    obtain ⟨z, more, rfl⟩ : ∃ z rest, more = z :: rest :=
      exists_cons_of_ne_nil (length_pos_iff.1 (by have := h.length_more; omega))
    obtain ⟨rfl, rfl⟩ := List.cons.inj hup
    obtain ⟨rfl, hsr, heq⟩ := ih hfronts (fun p hp => hpairs p (mem_cons_of_mem _ hp)) hwalk
    obtain ⟨rfl, -⟩ := Prod.mk.inj
      (hsep (hpairs _ mem_cons_self) (hright _ mem_cons_self) hsr)
    exact ⟨rfl, rfl, hlevel heq⟩

/-- The first loop climbs the levels on which the last old node has a left neighbour. -/
theorem Fronts.shiftOnes : ∃ olds' x' news' y' more',
      Fronts sha256 pairs r r' (Merkle.shiftOnes fn sn).1 (Merkle.shiftOnes fn sn).2 olds' x'
        news' y' more' ∧ (x' = y' → olds' = news' → x = y ∧ olds = news) := by
  fun_induction Merkle.shiftOnes fn sn generalizing olds x news y more with
  | case1 fn sn hodd ih =>
    obtain ⟨olds', a, news', b, rfl, rfl, hax, hby, hup, hlevel⟩ := h.up_odd hsep hodd
    obtain ⟨olds'', x', news'', y', more', hfronts, hback⟩ := ih hup
    refine ⟨olds'', x', news'', y', more', hfronts, fun hxy heq => ?_⟩
    obtain ⟨hnode, hpair⟩ := hback hxy heq
    obtain ⟨rfl, rfl⟩ := Prod.mk.inj (hsep hax hby hnode)
    exact ⟨rfl, by rw [hlevel hpair]⟩
  | case2 fn sn hstop => exact ⟨olds, x, news, y, more, h, fun hxy heq => ⟨hxy, heq⟩⟩

end Fronts

end Soundness

/-- The pairs the verifier hashes. -/
def ConsistencyProof.hashed (proof : ConsistencyProof) : List (Bytes × Bytes) :=
  match proof.proofPath.mapM decodeHash with
  | some (first :: path) =>
    let shifted := shiftOnes (proof.oldSize.toNat - 1) (proof.newSize.toNat - 1)
    walkPairs sha256 path shifted.1 shifted.2 first first
  | _ => []

/-- A proof between the trees over two lists of leaves. -/
def proofBetween (old new : List Bytes) (path : List Text) : ConsistencyProof where
  oldSize := old.length
  newSize := new.length
  oldRoot := (newFromHashes sha256 old).rootHex
  newRoot := (newFromHashes sha256 new).rootHex
  proofPath := path

/-- The pairs hashed in both trees and by the verifier. -/
def hashedBetween (old new : List Bytes) (path : List Text) :
    Set (Bytes × Bytes) :=
  {p | p ∈ treePairs (hashNode sha256) old ∨ p ∈ treePairs (hashNode sha256) new ∨
    p ∈ (proofBetween sha256 old new path).hashed sha256}

variable {sha256}

theorem decodeHash_encode {b : Bytes} (h : b.length = sha256Size) :
    decodeHash (Hex.encode b) = some b := by
  rw [decodeHash, Hex.decode_encode, filter_some, if_pos (by simpa using h)]

theorem mapM_decodeHash {bs : List Bytes} (h : ∀ b ∈ bs, b.length = sha256Size) :
    (bs.map Hex.encode).mapM decodeHash = some bs := by
  induction bs with
  | nil => rfl
  | cons b bs ih =>
    rw [map_cons, mapM_cons, decodeHash_encode (h b mem_cons_self),
      ih fun x hx => h x (mem_cons_of_mem _ hx)]
    rfl

/-- The root a verifier reads is the one that was written. -/
theorem root_of_read {leaves : List Bytes} {b : Bytes}
    (h : decodeHash (newFromHashes sha256 leaves).rootHex = some b) :
    (newFromHashes sha256 leaves).root = b := by
  have hdecode := (filter_eq_some_iff.1 h).1
  rwa [rootHex_eq, Hex.decode_encode, some.injEq] at hdecode

/-- Both trees at their leaves. -/
theorem exists_fronts {pairs : Set (Bytes × Bytes)} {old new : List Bytes}
    {r r' : Bytes} (hpos : 1 ≤ old.length) (hle : old.length ≤ new.length)
    (hold : Commits (hashNode sha256) pairs old r) (hnew : Commits (hashNode sha256) pairs new r') :
    ∃ olds x news y more, old = olds ++ [x] ∧ new = news ++ y :: more ∧
      Fronts sha256 pairs r r' (old.length - 1) (new.length - 1) olds x news y more := by
  obtain ⟨olds, x, rfl⟩ : ∃ olds x, old = olds ++ [x] :=
    ⟨_, _, (dropLast_append_getLast (length_pos_iff.1 hpos)).symm⟩
  rw [length_append, length_singleton] at hle
  have hsplit : new = new.take olds.length ++ new[olds.length] :: new.drop (olds.length + 1) := by
    rw [← drop_eq_getElem_cons, take_append_drop]
  rw [hsplit] at hnew
  refine ⟨olds, x, _, _, _, rfl, hsplit, ⟨?_, ?_, ?_, hold, hnew⟩⟩
  · simp
  · simp
    omega
  · simp
    omega

/-- **An accepted consistency proof shows a prefix.** -/
theorem consistency_sound {old new : List Bytes} {path : List Text}
    (hpos : 1 ≤ old.length) (hle : old.length ≤ new.length)
    (hsep : Separates (hashNode sha256) (hashedBetween sha256 old new path))
    (h : verifyConsistencyProof sha256 (some (proofBetween sha256 old new path)) = .ok true) :
    old <+: new := by
  have hne : old ≠ [] := length_pos_iff.1 hpos
  have hne' : new ≠ [] := length_pos_iff.1 (hpos.trans hle)
  have hold : Commits (hashNode sha256) (hashedBetween sha256 old new path) old
      (newFromHashes sha256 old).root := ⟨fun p hp => .inl hp, newFromHashes_root sha256 hne⟩
  have hnew : Commits (hashNode sha256) (hashedBetween sha256 old new path) new
      (newFromHashes sha256 new).root :=
    ⟨fun p hp => .inr (.inl hp), newFromHashes_root sha256 hne'⟩
  rw [verifyConsistencyProof_iff sha256 (Int.natCast_pos.2 hpos) (Int.ofNat_le.2 hle)] at h
  split_ifs at h with hsize
  · -- trees of one size: the roots are equal, and so are the leaves
    have hroot : (newFromHashes sha256 old).root = (newFromHashes sha256 new).root := by
      apply Hex.encode_injective
      rw [← rootHex_eq, ← rootHex_eq]
      exact h.1
    rw [← hroot] at hnew
    have heq : old = new := hold.unique hsep hnew hne (Int.ofNat_inj.1 hsize)
    exact heq ▸ prefix_refl old
  · obtain ⟨oldRoot, newRoot, first, rest, haccepted⟩ := h
    have hread := root_of_read haccepted.old_read
    have hread' := root_of_read haccepted.new_read
    obtain ⟨olds, x, news, y, more, hsplit, hsplit', hfronts⟩ := exists_fronts hpos hle hold hnew
    obtain ⟨olds', x', news', y', more', hfronts', hback⟩ := hfronts.shiftOnes hsep
    have hpairs : ∀ p ∈ walkPairs sha256 rest (shiftOnes (old.length - 1) (new.length - 1)).1
        (shiftOnes (old.length - 1) (new.length - 1)).2 first first,
        p ∈ hashedBetween sha256 old new path := by
      intro p hp
      refine .inr (.inr ?_)
      rw [ConsistencyProof.hashed, haccepted.path_read]
      exact hp
    have hwalk := haccepted.rebuilt
    rw [← hread, ← hread'] at hwalk
    obtain ⟨rfl, rfl, heq⟩ := hfronts'.walk hsep hpairs hwalk
    obtain ⟨rfl, rfl⟩ := hback rfl heq
    rw [hsplit, hsplit']
    exact ⟨more, by simp⟩

/-- Sample digests. -/
def sampleHash (b : UInt8) : Bytes := List.replicate 32 b

theorem newFromHashes_one (a : Bytes) : (newFromHashes sha256 [a]).root = a := by
  have hroot := newFromHashes_root sha256 (cons_ne_nil a [])
  rw [top_singleton] at hroot
  exact (some.inj hroot).symm

theorem newFromHashes_two (a b : Bytes) :
    (newFromHashes sha256 [a, b]).root = hashNode sha256 a b := by
  have hroot := newFromHashes_root sha256 (cons_ne_nil a [b])
  rw [top, levels_pair] at hroot
  exact (some.inj hroot).symm

/-- The path from one leaf to two. -/
def grownPath : List Text := [Hex.encode (sampleHash 0), Hex.encode (sampleHash 1)]

theorem read_grownPath : grownPath.mapM decodeHash = some [sampleHash 0, sampleHash 1] := by
  rw [grownPath, mapM_cons, mapM_cons, decodeHash_encode rfl, decodeHash_encode rfl]
  rfl

theorem shiftOnes_grown : shiftOnes 0 1 = (0, 1) := by
  rw [shiftOnes, if_neg (by decide)]

/-- One leaf is followed by another. -/
theorem consistency_sound_grown :
    verifyConsistencyProof Digest.sha256 (some (proofBetween Digest.sha256 [sampleHash 0]
      [sampleHash 0, sampleHash 1] grownPath)) = .ok true ∧
    [sampleHash 0] <+: [sampleHash 0, sampleHash 1] := by
  have hverify : verifyConsistencyProof Digest.sha256 (some (proofBetween Digest.sha256
      [sampleHash 0] [sampleHash 0, sampleHash 1] grownPath)) = .ok true := by
    rw [verifyConsistencyProof_iff _ (by decide) (by decide), if_neg (by decide)]
    refine ⟨sampleHash 0, hashNode Digest.sha256 (sampleHash 0) (sampleHash 1), sampleHash 0,
      [sampleHash 1], ?_, ?_, read_grownPath, ?_⟩
    · show decodeHash (newFromHashes Digest.sha256 [sampleHash 0]).rootHex = _
      rw [rootHex_eq, newFromHashes_one, decodeHash_encode rfl]
    · show decodeHash (newFromHashes Digest.sha256 [sampleHash 0, sampleHash 1]).rootHex = _
      rw [rootHex_eq, newFromHashes_two, decodeHash_encode rfl]
    · show walk _ _ (shiftOnes 0 1).1 (shiftOnes 0 1).2 _ _ = _
      rw [shiftOnes_grown]
      rfl
  have honly : ∀ p ∈ hashedBetween Digest.sha256 [sampleHash 0] [sampleHash 0, sampleHash 1]
      grownPath, p = (sampleHash 0, sampleHash 1) := by
    rintro p (hp | hp | hp)
    · rw [treePairs, levels_singleton] at hp
      cases hp
    · rw [treePairs, levels_pair] at hp
      exact mem_singleton.1 hp
    · rw [ConsistencyProof.hashed, show (proofBetween Digest.sha256 [sampleHash 0]
        [sampleHash 0, sampleHash 1] grownPath).proofPath = grownPath from rfl,
          read_grownPath] at hp
      have hp : p ∈ walkPairs Digest.sha256 [sampleHash 1] (shiftOnes 0 1).1 (shiftOnes 0 1).2
        (sampleHash 0) (sampleHash 0) := hp
      rw [shiftOnes_grown] at hp
      exact mem_singleton.1 hp
  refine ⟨hverify, consistency_sound (by decide) (by decide) ?_ hverify⟩
  exact fun p hp q hq _ => (honly p hp).trans (honly q hq).symm

end MxKeys.Merkle
