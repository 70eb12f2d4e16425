/-
# MxKeys.Merkle.Inclusion — proofs that a leaf is in the tree.

`zero/merkle/proof.go`.  The verifier folds the siblings of the audit path into the leaf hash, on
the side each direction tells, and compares the result with the root.  It checks that the index is
below the size of the tree and reads neither of them again: nothing ties the directions to the
index, or the length of the path to the size.

Every proof that `GetProof` makes is accepted (`inclusion_complete`): the siblings it collects level
by level are what the verifier needs to get from each node to the one above.

`inclusion_bound_iff` says what an accepted proof shows.  For a given index and given directions
every accepted proof is one of the leaf at that index exactly when the directions, read from the
root, end neither at an inner node nor at another leaf.  The hash of the first of two leaves passes
as the second (`swapped_index_accepted`), and an inner node passes as a leaf.
-/
import MxKeys.Merkle.Consistency

namespace MxKeys.Merkle

open Lib Lib.HashTree
open List Option Hex

/-! ## The prover and the verifier -/

/-- `Proof`; a direction is `0` for a sibling on the left and `1` for one on the right. -/
structure Proof where
  leafIndex : Int
  leafHash : Text
  treeSize : Int
  rootHash : Text
  auditPath : List Text
  directions : List Int

/-- The loop of `GetProof`: the siblings on the levels below the last one, with their directions. -/
def auditSteps : List (List Bytes) → Nat → List (Bytes × Int)
  | levelNodes :: next :: levels, idx =>
    let siblingIdx := if idx % 2 = 0 then idx + 1 else idx - 1
    let direction := if idx % 2 = 0 then 1 else 0
    (levelNodes[siblingIdx]?.map (·, direction)).toList ++ auditSteps (next :: levels) (idx / 2)
  | _, _ => []

variable {sha256 : Bytes → Bytes}

/-- `GetProof`. -/
def Tree.getProof (t : Tree sha256) (index : Int) : Except MerkleError Proof :=
  if t.leaves = [] then .error .emptyTree
  else if index < 0 ∨ t.leaves.length ≤ index then .error .invalidIndex
  else
    let steps := auditSteps t.levels index.toNat
    .ok {
      leafIndex := index
      leafHash := encode (t.leaves.getD index.toNat [])
      treeSize := t.leaves.length
      rootHash := encode t.root
      auditPath := steps.map fun s => encode s.1
      directions := steps.map Prod.snd }

variable (sha256)

/-- A round of the loop of `VerifyProof`. -/
def foldSibling (current : Bytes) (step : Bytes × Int) : Bytes :=
  if step.2 = 0 then hashNode sha256 step.1 current else hashNode sha256 current step.1

/-- `VerifyProof`. -/
def verifyProof : Option Proof → Except MerkleError Bool
  | none => .error .invalidProof
  | some proof =>
    if proof.auditPath.length ≠ proof.directions.length then .error .invalidProof
    else if proof.leafIndex < 0 ∨ proof.treeSize ≤ 0 ∨ proof.treeSize ≤ proof.leafIndex then
      .error .invalidProof
    else
      match decodeHash proof.leafHash, decodeHash proof.rootHash with
      | some leafHash, some expectedRoot =>
        if ∃ dir ∈ proof.directions, dir ≠ 0 ∧ dir ≠ 1 then .error .invalidProof
        else
          match proof.auditPath.mapM decodeHash with
          | some siblings =>
            .ok ((siblings.zip proof.directions).foldl (foldSibling sha256) leafHash = expectedRoot)
          | none => .error .invalidProof
      | _, _ => .error .invalidProof

/-! ## Verification as a climb -/

/-- Siblings and their directions as steps of a climb. -/
def climbSteps (siblings : List Bytes) (directions : List Int) :
    List (Bool × Bytes) :=
  (siblings.zip directions).map fun s => (s.2 = 0, s.1)

/-- The pairs the verifier hashes. -/
def Proof.hashed (proof : Proof) : List (Bytes × Bytes) :=
  match decodeHash proof.leafHash, proof.auditPath.mapM decodeHash with
  | some leafHash, some siblings =>
    climbPairs (hashNode sha256) leafHash (climbSteps siblings proof.directions)
  | _, _ => []

variable {sha256}

theorem foldl_foldSibling (leafHash : Bytes) (siblings : List Bytes)
    (directions : List Int) :
    (siblings.zip directions).foldl (foldSibling sha256) leafHash =
      climb (hashNode sha256) leafHash (climbSteps siblings directions) := by
  rw [climb, climbSteps, foldl_map]
  refine congrFun (congrFun (congrArg foldl ?_) _) _
  funext current step
  by_cases h : step.2 = 0
  · simp [foldSibling, beside, h]
  · simp [foldSibling, beside, h]

variable {siblings : List Bytes} {directions : List Int}

theorem length_of_read {path : List Text} (h : path.mapM decodeHash = some siblings) :
    siblings.length = path.length := by
  induction path generalizing siblings with
  | nil =>
    cases h
    rfl
  | cons s path ih =>
    rw [mapM_cons] at h
    obtain ⟨b, -, h⟩ := bind_eq_some_iff.1 h
    obtain ⟨rest, hrest, h⟩ := bind_eq_some_iff.1 h
    cases h
    rw [length_cons, length_cons, ih hrest]

theorem climbSteps_eq {steps : List (Bool × Bytes)}
    (h : steps.map Prod.fst = directions.map fun dir => decide (dir = 0)) :
    climbSteps (steps.map Prod.snd) directions = steps := by
  induction steps generalizing directions with
  | nil => rfl
  | cons step steps ih =>
    cases directions with
    | nil => cases h
    | cons dir directions =>
      obtain ⟨hstep, hsteps⟩ := cons.inj h
      have hstep : step.1 = decide (dir = 0) := hstep
      show (decide (dir = 0), step.2) :: climbSteps (steps.map Prod.snd) directions = _
      rw [ih hsteps, ← hstep]

theorem climbSteps_turns (h : siblings.length = directions.length) :
    (climbSteps siblings directions).map Prod.fst = directions.map fun dir => decide (dir = 0) := by
  rw [climbSteps, List.map_map]
  have hsnd : (siblings.zip directions).map Prod.snd = directions :=
    map_snd_zip h.ge
  conv_rhs => rw [← hsnd, List.map_map]
  rfl

/-- When a proof is accepted. -/
structure Verified (sha256 : Bytes → Bytes) (proof : Proof) (leafHash root : Bytes)
    (siblings : List Bytes) : Prop where
  lengths : proof.auditPath.length = proof.directions.length
  range : 0 ≤ proof.leafIndex ∧ proof.leafIndex < proof.treeSize
  leaf_read : decodeHash proof.leafHash = some leafHash
  root_read : decodeHash proof.rootHash = some root
  directions : ∀ dir ∈ proof.directions, dir = 0 ∨ dir = 1
  path_read : proof.auditPath.mapM decodeHash = some siblings
  climb : climb (hashNode sha256) leafHash (climbSteps siblings proof.directions) = root

theorem verifyProof_iff (proof : Proof) :
    verifyProof sha256 (some proof) = .ok true ↔
      ∃ leafHash root siblings, Verified sha256 proof leafHash root siblings := by
  rw [verifyProof]
  constructor
  · intro h
    split_ifs at h with hlengths hrange hdirs
    · split at h
      · cases h
      · cases h
    · split at h
      · next leafHash root hleaf hroot =>
        split at h
        · next siblings hpath =>
          rw [Except.ok.injEq, decide_eq_true_iff, foldl_foldSibling] at h
          refine ⟨leafHash, root, siblings, not_not.1 hlengths, by omega, hleaf, hroot, ?_,
            hpath, h⟩
          intro dir hdir
          by_contra hne
          exact hdirs ⟨dir, hdir, by omega, by omega⟩
        · cases h
      · cases h
  · rintro ⟨leafHash, root, siblings, h⟩
    have hdirs : ¬∃ dir ∈ proof.directions, dir ≠ 0 ∧ dir ≠ 1 := by
      rintro ⟨dir, hdir, hne⟩
      have := h.directions dir hdir
      omega
    have hrange := h.range
    simp only [h.lengths, not_true, if_false, h.leaf_read, h.root_read, h.path_read,
      if_neg hdirs, if_neg (show ¬(proof.leafIndex < 0 ∨ proof.treeSize ≤ 0 ∨
        proof.treeSize ≤ proof.leafIndex) by omega), foldl_foldSibling, h.climb, ne_eq, decide_true]

/-! ## Generated proofs -/

/-- A sibling that `GetProof` can take from a tree of hashes. -/
def ProofStep (step : Bytes × Int) : Prop :=
  step.1.length = sha256Size ∧ (step.2 = 0 ∨ step.2 = 1)

variable (sha256) in
/-- One level of the loop of `GetProof`: at most one sibling, which the verifier folds into the
node to get the node above. -/
theorem audit_level {level : List Bytes} (hlevel : ∀ x ∈ level, x.length = sha256Size)
    {idx : Nat} {current : Bytes} (hcurrent : level[idx]? = some current) :
    ∃ steps : List (Bytes × Int),
      (∀ upper, upper ≠ [] →
        auditSteps (level :: upper) idx = steps ++ auditSteps upper (idx / 2)) ∧
      (pairUp (hashNode sha256) level)[idx / 2]? = some (steps.foldl (foldSibling sha256) current) ∧
      steps.length ≤ 1 ∧ ∀ step ∈ steps, ProofStep step := by
  obtain ⟨i, rfl | rfl⟩ : ∃ i, idx = 2 * i ∨ idx = 2 * i + 1 := ⟨idx / 2, by omega⟩
  · have hup : ∀ upper, upper ≠ [] → auditSteps (level :: upper) (2 * i) =
        (level[2 * i + 1]?.map (·, (1 : Int))).toList ++ auditSteps upper (2 * i / 2) := by
      intro upper hne
      obtain ⟨next, rest, rfl⟩ := exists_cons_of_ne_nil hne
      rw [auditSteps, if_pos (by omega), if_pos (by omega)]
    have hhalf : 2 * i / 2 = i := by omega
    refine ⟨_, hup, ?_⟩
    rw [hhalf]
    cases hsibling : level[2 * i + 1]? with
    | none => exact ⟨getElem?_pairUp_last _ hcurrent hsibling, by simp, by simp⟩
    | some sibling =>
      refine ⟨getElem?_pairUp _ hcurrent hsibling, by simp, fun step hstep => ?_⟩
      obtain rfl : step = (sibling, 1) := by simpa using hstep
      exact ⟨hlevel _ (mem_of_getElem? hsibling), .inr rfl⟩
  · have hlt : 2 * i < level.length := by
      have := (List.getElem?_eq_some_iff.1 hcurrent).1
      omega
    have hsibling : level[2 * i]? = some level[2 * i] := getElem?_eq_getElem hlt
    have hup : ∀ upper, upper ≠ [] → auditSteps (level :: upper) (2 * i + 1) =
        [(level[2 * i], 0)] ++ auditSteps upper ((2 * i + 1) / 2) := by
      intro upper hne
      obtain ⟨next, rest, rfl⟩ := exists_cons_of_ne_nil hne
      rw [auditSteps, if_neg (by omega), if_neg (by omega), Nat.add_sub_cancel, hsibling]
      rfl
    have hhalf : (2 * i + 1) / 2 = i := by omega
    refine ⟨_, hup, ?_, by simp, fun step hstep => ?_⟩
    · rw [hhalf]
      exact getElem?_pairUp _ hsibling hcurrent
    · obtain rfl := mem_singleton.1 hstep
      exact ⟨hlevel _ (mem_of_getElem? hsibling), .inl rfl⟩

/-- **The loop of `GetProof` collects a way to the root.** -/
theorem auditSteps_fold (hhash : ∀ bytes, (sha256 bytes).length = sha256Size)
    {level : List Bytes} (hne : level ≠ []) (hlevel : ∀ x ∈ level, x.length = sha256Size)
    {idx : Nat} {current : Bytes} (hcurrent : level[idx]? = some current) :
    top (hashNode sha256) level =
        some ((auditSteps (levels (hashNode sha256) level) idx).foldl (foldSibling sha256)
          current) ∧
      (auditSteps (levels (hashNode sha256) level) idx).length ≤ Nat.clog 2 level.length ∧
      ∀ step ∈ auditSteps (levels (hashNode sha256) level) idx, ProofStep step := by
  induction hne using level_induction (hashNode sha256) generalizing idx current with
  | one a =>
    obtain rfl : idx = 0 := by
      have := (List.getElem?_eq_some_iff.1 hcurrent).1
      rw [length_singleton] at this
      omega
    cases hcurrent
    rw [levels_singleton, top_singleton]
    exact ⟨rfl, Nat.zero_le _, nofun⟩
  | up level h hlt ih =>
    obtain ⟨steps, hsteps, habove, hlength, hproper⟩ := audit_level sha256 hlevel hcurrent
    have hup : ∀ x ∈ pairUp (hashNode sha256) level, x.length = sha256Size :=
      forall_drop_pairUp (hashNode sha256) (fun _ _ _ _ => hhash _) (i := 0) hlevel
    obtain ⟨htop, hle, hrest⟩ := ih hup habove
    have hclog : Nat.clog 2 level.length =
        Nat.clog 2 (pairUp (hashNode sha256) level).length + 1 := by
      rw [length_pairUp, Nat.clog_of_two_le Nat.one_lt_two hlt]
      rfl
    rw [levels_of_lt hlt, top_of_lt hlt, hsteps _ (levels_ne_nil _), foldl_append,
      length_append, hclog]
    refine ⟨htop, by omega, fun step hstep => ?_⟩
    rcases mem_append.1 hstep with hstep | hstep
    · exact hproper step hstep
    · exact hrest step hstep

/-- What `GetProof` returns for an index within the tree. -/
theorem getProof_ok {leaves : List Bytes} {index : Nat} (h : index < leaves.length) :
    (newFromHashes sha256 leaves).getProof index = .ok {
      leafIndex := index
      leafHash := encode (leaves.getD index [])
      treeSize := leaves.length
      rootHash := encode (newFromHashes sha256 leaves).root
      auditPath := ((auditSteps (levels (hashNode sha256) leaves) index).map Prod.fst).map encode
      directions := (auditSteps (levels (hashNode sha256) leaves) index).map Prod.snd } := by
  have hne : leaves ≠ [] := ne_nil_of_length_pos (by omega)
  rw [Tree.getProof, newFromHashes_leaves, if_neg hne, if_neg (by omega),
    newFromHashes_levels sha256 hne, List.map_map]
  rfl

/-- **Inclusion proofs are complete**: the proof of every leaf is accepted, and its audit path is no
longer than the tree is high. -/
theorem inclusion_complete (hhash : ∀ bytes, (sha256 bytes).length = sha256Size)
    {leaves : List Bytes} (hleaves : ∀ leaf ∈ leaves, leaf.length = sha256Size) {index : Nat}
    (hindex : index < leaves.length) :
    ∃ proof, (newFromHashes sha256 leaves).getProof index = .ok proof ∧
      verifyProof sha256 (some proof) = .ok true ∧
      proof.auditPath.length ≤ Nat.clog 2 leaves.length := by
  have hne : leaves ≠ [] := ne_nil_of_length_pos (by omega)
  have hleaf : leaves[index]? = some (leaves.getD index []) := by
    rw [getD_eq_getElem?_getD, getElem?_eq_getElem hindex, getD_some]
  obtain ⟨htop, hlength, hsteps⟩ := auditSteps_fold hhash hne hleaves hleaf
  rw [newFromHashes_root sha256 hne] at htop
  have hnode : ∀ a b : Bytes, a.length = sha256Size → b.length = sha256Size →
      (hashNode sha256 a b).length = sha256Size := fun _ _ _ _ => hhash _
  have hroot : (newFromHashes sha256 leaves).root.length = sha256Size :=
    top_of_forall hnode hne hleaves (newFromHashes_root sha256 hne)
  refine ⟨_, getProof_ok hindex, (verifyProof_iff _).2 ⟨leaves.getD index [],
    (newFromHashes sha256 leaves).root,
    (auditSteps (levels (hashNode sha256) leaves) index).map Prod.fst, ?_⟩, by simpa using hlength⟩
  refine ⟨by simp, ⟨Int.natCast_nonneg _, Int.ofNat_lt.2 hindex⟩,
    decodeHash_encode (hleaves _ (mem_of_getElem? hleaf)), decodeHash_encode hroot, ?_,
    mapM_decodeHash ?_, ?_⟩
  · intro dir hdir
    obtain ⟨step, hstep, rfl⟩ := mem_map.1 hdir
    exact (hsteps step hstep).2
  · intro b hb
    obtain ⟨step, hstep, rfl⟩ := mem_map.1 hb
    exact (hsteps step hstep).1
  · rw [← foldl_foldSibling, zip_map', map_id'']
    · exact (some.inj htop).symm
    · exact fun _ => rfl

/-- The last of three leaves has no neighbour on its level. -/
theorem inclusion_complete_last :
    ∃ proof, (newFromHashes Digest.sha256 [sampleHash 0, sampleHash 1, sampleHash 2]).getProof 2 =
        .ok proof ∧
      verifyProof Digest.sha256 (some proof) = .ok true ∧ proof.auditPath.length ≤ Nat.clog 2 3 :=
  inclusion_complete (fun _ => rfl) (by decide) (by decide)

/-! ## What an accepted proof shows -/

/-- The hash keeps pairs apart, and no leaf is the hash of one of them. -/
structure Ideal (sha256 : Bytes → Bytes) (leaves : List Bytes)
    (pairs : Set (Bytes × Bytes)) : Prop where
  separates : Separates (hashNode sha256) pairs
  no_leaf : ∀ p ∈ pairs, hashNode sha256 p.1 p.2 ∉ leaves

section Bound

variable (sha256) (leaves : List Bytes) (index : Int) (directions : List Int)

/-- A proof against the tree over leaves. -/
def proofIn (leafHash : Text) (auditPath : List Text) : Proof where
  leafIndex := index
  leafHash := leafHash
  treeSize := leaves.length
  rootHash := (newFromHashes sha256 leaves).rootHex
  auditPath := auditPath
  directions := directions

/-- The pairs hashed in the tree and by the verifier. -/
def hashedIn (proof : Proof) : Set (Bytes × Bytes) :=
  {p | p ∈ treePairs (hashNode sha256) leaves ∨ p ∈ proof.hashed sha256}

/-- Every accepted proof with this index and these directions is one of the leaf at the index. -/
def Binds : Prop :=
  ∀ leafHash auditPath,
    let proof := proofIn sha256 leaves index directions leafHash auditPath
    Ideal sha256 leaves (hashedIn sha256 leaves proof) →
      verifyProof sha256 (some proof) = .ok true →
        0 ≤ index ∧ index < leaves.length ∧ decode leafHash = leaves[index.toNat]?

/-- The part of the tree the directions lead to from the root, if they stay in the tree. -/
def reached : Option (Shape Bytes) :=
  if ∃ dir ∈ directions, dir ≠ 0 ∧ dir ≠ 1 then none
  else (shape leaves).bind fun t => t.follow (directions.map fun dir => decide (dir = 0)).reverse

/-- The directions lead to nothing but the leaf at the index. -/
def LeadsTo : Prop :=
  0 ≤ index → index < leaves.length →
    ∀ t, reached leaves directions = some t → some t = leaves[index.toNat]?.map Shape.leaf

end Bound

variable {leaves : List Bytes} {index : Int} {directions : List Int} {pairs : Set (Bytes × Bytes)}

theorem Ideal.mono {pairs' : Set (Bytes × Bytes)} (h : Ideal sha256 leaves pairs)
    (hsub : pairs' ⊆ pairs) : Ideal sha256 leaves pairs' :=
  ⟨h.separates.mono hsub, fun p hp => h.no_leaf p (hsub hp)⟩

/-- What is reached is not an inner node when it is hashed like a leaf. -/
theorem leaf_of_digest_mem {u : Shape Bytes} (h : Ideal sha256 leaves pairs)
    (hjoined : ∀ p ∈ u.joined (hashNode sha256), p ∈ pairs)
    (hmem : u.digest (hashNode sha256) ∈ leaves) : u = .leaf (u.digest (hashNode sha256)) := by
  cases u with
  | leaf d => rfl
  | node left right => exact absurd hmem (h.no_leaf _ (hjoined _ mem_cons_self))

/-- The honest proof of a node that is reached is accepted. -/
theorem Binds.leadsTo (hhash : ∀ bytes, (sha256 bytes).length = sha256Size)
    (hne : leaves ≠ []) (hleaves : ∀ leaf ∈ leaves, leaf.length = sha256Size)
    (htree : Ideal sha256 leaves {p | p ∈ treePairs (hashNode sha256) leaves})
    (h : Binds sha256 leaves index directions) : LeadsTo leaves index directions := by
  obtain ⟨t, hshape, htop, hmem, hjoined⟩ := exists_shape (hashNode sha256) hne
  have hroot : (newFromHashes sha256 leaves).root = t.digest (hashNode sha256) :=
    some.inj ((newFromHashes_root sha256 hne).symm.trans htop)
  intro hpos hlt u hu
  rw [reached] at hu
  split_ifs at hu with hdirs
  rw [hshape, bind_some] at hu
  obtain ⟨huleaves, hujoined⟩ := Shape.follow_subset (hashNode sha256) hu
  have hnode : ∀ a b : Bytes, a.length = sha256Size → b.length = sha256Size →
      (hashNode sha256 a b).length = sha256Size := fun _ _ _ _ => hhash _
  obtain ⟨steps, hturns, hclimb, hpairs, hsizes⟩ :=
    Shape.climb_of_follow hnode hu fun x hx => hleaves x (hmem x hx)
  rw [reverse_reverse] at hturns
  have hsize : ∀ {s : Shape Bytes}, (∀ x ∈ s.leaves, x ∈ t.leaves) →
      (s.digest (hashNode sha256)).length = sha256Size := fun hs =>
    Shape.digest_of_forall hnode fun x hx => hleaves x (hmem x (hs x hx))
  have hread : ((steps.map Prod.snd).map encode).mapM decodeHash =
      some (steps.map Prod.snd) := by
    refine mapM_decodeHash fun b hb => ?_
    obtain ⟨s, hs, rfl⟩ := mem_map.1 hb
    exact hsizes s hs
  have hlen := congrArg length hturns
  rw [length_map, length_map] at hlen
  have hverified : Verified sha256 (proofIn sha256 leaves index directions
      (encode (u.digest (hashNode sha256))) ((steps.map Prod.snd).map encode))
      (u.digest (hashNode sha256)) (t.digest (hashNode sha256)) (steps.map Prod.snd) := by
    refine ⟨?_, ⟨hpos, hlt⟩, decodeHash_encode (hsize huleaves), ?_, ?_, hread, ?_⟩
    · simpa [proofIn] using hlen
    · show decodeHash (newFromHashes sha256 leaves).rootHex = _
      rw [rootHex_eq, hroot, decodeHash_encode (hsize fun _ hx => hx)]
    · intro dir hdir
      by_contra hbad
      exact hdirs ⟨dir, hdir, by omega, by omega⟩
    · show climb _ _ (climbSteps (steps.map Prod.snd) directions) = _
      rw [climbSteps_eq hturns, hclimb]
  have hsub : hashedIn sha256 leaves (proofIn sha256 leaves index directions
      (encode (u.digest (hashNode sha256))) ((steps.map Prod.snd).map encode)) ⊆
      {p | p ∈ treePairs (hashNode sha256) leaves} := by
    rintro p (hp | hp)
    · exact hp
    · rw [Proof.hashed, hverified.leaf_read, hverified.path_read] at hp
      have hp : p ∈ climbPairs (hashNode sha256) (u.digest (hashNode sha256))
        (climbSteps (steps.map Prod.snd) directions) := hp
      rw [climbSteps_eq hturns] at hp
      exact hjoined p (hpairs p hp)
  obtain ⟨-, -, hdecode⟩ :=
    h _ _ (htree.mono hsub) ((verifyProof_iff _).2 ⟨_, _, _, hverified⟩)
  rw [decode_encode] at hdecode
  have hleaf := leaf_of_digest_mem htree (fun p hp => hjoined p (hujoined p hp))
    (mem_of_getElem? hdecode.symm)
  rw [← hdecode, map_some, ← hleaf]

/-- An accepted proof is one of the node its directions lead to. -/
theorem LeadsTo.binds (hne : leaves ≠ []) (h : LeadsTo leaves index directions) :
    Binds sha256 leaves index directions := by
  obtain ⟨t, hshape, htop, hmem, hjoined⟩ := exists_shape (hashNode sha256) hne
  have hroot : (newFromHashes sha256 leaves).root = t.digest (hashNode sha256) :=
    some.inj ((newFromHashes_root sha256 hne).symm.trans htop)
  intro leafHash auditPath proof hideal haccept
  obtain ⟨leaf, root, siblings, hv⟩ := (verifyProof_iff proof).1 haccept
  have hsteps : ∀ p ∈ climbPairs (hashNode sha256) leaf (climbSteps siblings directions),
      p ∈ hashedIn sha256 leaves proof := by
    intro p hp
    refine .inr ?_
    rw [Proof.hashed, hv.leaf_read, hv.path_read]
    exact hp
  obtain ⟨u, hfollow, hdigest⟩ := Shape.follow_of_climb hideal.separates
    (hv.climb.trans ((root_of_read hv.root_read).symm.trans hroot))
    (fun p hp => .inl (hjoined p hp)) hsteps
    (fun x hx p hp heq => hideal.no_leaf p hp (heq ▸ hmem x hx))
  rw [climbSteps_turns ((length_of_read hv.path_read).trans hv.lengths)] at hfollow
  have hreached : reached leaves directions = some u := by
    rw [reached, if_neg, hshape]
    · exact hfollow
    · rintro ⟨dir, hdir, hdir₀, hdir₁⟩
      exact (hv.directions dir hdir).elim hdir₀ hdir₁
  have hleaf := h hv.range.1 hv.range.2 u hreached
  have hdecode : decode leafHash = some leaf := (filter_eq_some_iff.1 hv.leaf_read).1
  refine ⟨hv.range.1, hv.range.2, ?_⟩
  obtain ⟨d, hd, rfl⟩ := map_eq_some_iff.1 hleaf.symm
  rw [hdecode, hd, ← hdigest]
  rfl

/-- **What an inclusion proof binds.** -/
theorem inclusion_bound_iff (hhash : ∀ bytes, (sha256 bytes).length = sha256Size)
    (hne : leaves ≠ []) (hleaves : ∀ leaf ∈ leaves, leaf.length = sha256Size)
    (htree : Ideal sha256 leaves {p | p ∈ treePairs (hashNode sha256) leaves}) :
    Binds sha256 leaves index directions ↔ LeadsTo leaves index directions :=
  ⟨Binds.leadsTo hhash hne hleaves htree, LeadsTo.binds hne⟩

/-- Two leaves. -/
def twoLeaves : List Bytes := [sampleHash 0, sampleHash 1]

theorem hash_not_in_twoLeaves :
    hashNode Digest.sha256 (sampleHash 0) (sampleHash 1) ∉ twoLeaves := by
  decide +kernel

theorem ideal_twoLeaves (h : ∀ p ∈ pairs, p = (sampleHash 0, sampleHash 1)) :
    Ideal Digest.sha256 twoLeaves pairs := by
  refine ⟨fun p hp q hq _ => (h p hp).trans (h q hq).symm, fun p hp => ?_⟩
  rw [h p hp]
  exact hash_not_in_twoLeaves

theorem treePairs_twoLeaves :
    treePairs (hashNode Digest.sha256) twoLeaves = [(sampleHash 0, sampleHash 1)] := by
  rw [treePairs, twoLeaves, levels_pair]
  rfl

/-- The direction of the second leaf leads to it. -/
theorem inclusion_bound_second : Binds Digest.sha256 twoLeaves 1 [0] := by
  refine (inclusion_bound_iff (fun _ => rfl) (by decide) (by decide) ?_).2 ?_
  · refine ideal_twoLeaves fun p hp => ?_
    rw [treePairs_twoLeaves] at hp
    exact mem_singleton.1 hp
  · intro _ _ t ht
    have hshape : shape twoLeaves = some (.node (.leaf (sampleHash 0)) (.leaf (sampleHash 1))) := by
      rw [shape, top, twoLeaves, map_cons, map_singleton, levels_pair]
      rfl
    rw [reached, hshape, if_neg (by decide)] at ht
    exact ht.symm

/-- A proof of the first leaf with the index of the second. -/
def swappedProof : Proof :=
  proofIn Digest.sha256 twoLeaves 1 [1] (encode (sampleHash 0)) [encode (sampleHash 1)]

/-- **The index is not bound**: the first of two leaves passes as the second. -/
theorem swapped_index_accepted :
    Ideal Digest.sha256 twoLeaves (hashedIn Digest.sha256 twoLeaves swappedProof) ∧
      verifyProof Digest.sha256 (some swappedProof) = .ok true ∧
      Hex.decode swappedProof.leafHash ≠ twoLeaves[swappedProof.leafIndex.toNat]? := by
  have hleaf : decodeHash swappedProof.leafHash = some (sampleHash 0) := decodeHash_encode rfl
  have hpath : swappedProof.auditPath.mapM decodeHash = some [sampleHash 1] := by
    show ([sampleHash 1].map encode).mapM decodeHash = _
    exact mapM_decodeHash (by decide)
  have hroot : decodeHash swappedProof.rootHash =
      some (hashNode Digest.sha256 (sampleHash 0) (sampleHash 1)) := by
    show decodeHash (newFromHashes Digest.sha256 [sampleHash 0, sampleHash 1]).rootHex = _
    rw [rootHex_eq, newFromHashes_two, decodeHash_encode rfl]
  have hverified : Verified Digest.sha256 swappedProof (sampleHash 0)
      (hashNode Digest.sha256 (sampleHash 0) (sampleHash 1)) [sampleHash 1] := by
    have hsteps : climbSteps [sampleHash 1] swappedProof.directions = [(false, sampleHash 1)] := rfl
    refine ⟨rfl, by decide, hleaf, hroot, by decide, hpath, ?_⟩
    simp only [hsteps, climb, beside, foldl_cons, foldl_nil, Bool.false_eq_true, if_false]
  refine ⟨ideal_twoLeaves ?_, (verifyProof_iff _).2 ⟨_, _, _, hverified⟩, ?_⟩
  · rintro p (hp | hp)
    · rw [treePairs_twoLeaves] at hp
      exact mem_singleton.1 hp
    · rw [Proof.hashed, hleaf, hpath] at hp
      exact mem_singleton.1 hp
  · show decode (encode (sampleHash 0)) ≠ _
    rw [decode_encode]
    decide

end MxKeys.Merkle
