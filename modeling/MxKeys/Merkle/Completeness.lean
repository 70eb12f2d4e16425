/-
# MxKeys.Merkle.Completeness — which generated consistency proofs the verifier accepts.

The prover and the verifier of `zero/merkle/consistency.go` walk the trees differently: the prover
takes the old root and then, on every level where the old tree ends at an even place, the second
node after that end; the verifier expects the nodes of RFC 6962.  `consistency_complete_iff`: for
every content of the tree the generated proof is accepted exactly when both sizes are equal, or when
a tree of two leaves has grown by one.  The smallest growth, from one leaf to two, is refused
(`grown_proof_refused`).

For the other sizes a hash that only remembers whether a non-zero byte was hashed is enough to tell
the rebuilt roots from the real ones.
-/
import MxKeys.Merkle.Consistency
import Mathlib.Algebra.Group.Nat.Defs

namespace MxKeys.Merkle

open Lib Lib.HashTree
open List Option

variable {sha256 : Bytes → Bytes}

/-! ## The generated proof -/

section Generated

variable (sha256) (leaves : List Bytes) (m : Nat)

/-- What `GetConsistencyProof` returns for a size within the tree. -/
def generatedProof : ConsistencyProof where
  oldSize := m
  newSize := leaves.length
  oldRoot := Hex.encode (newFromHashes sha256 (leaves.take m)).root
  newRoot := Hex.encode (newFromHashes sha256 leaves).root
  proofPath :=
    if m = leaves.length then []
    else ((newFromHashes sha256 (leaves.take m)).root ::
      boundaryNodes (levels (hashNode sha256) leaves) m leaves.length).map Hex.encode

/-- The generated proof is accepted. -/
def Complete : Prop :=
  ∃ proof, (newFromHashes sha256 leaves).getConsistencyProof m = .ok proof ∧
    verifyConsistencyProof sha256 (some proof) = .ok true

/-- The roots are rebuilt from the old root and the boundary nodes. -/
def Rebuilds : Prop :=
  rebuildRoots sha256 m leaves.length (newFromHashes sha256 (leaves.take m)).root
      (boundaryNodes (levels (hashNode sha256) leaves) m leaves.length) =
    some ((newFromHashes sha256 (leaves.take m)).root, (newFromHashes sha256 leaves).root)

end Generated

variable {leaves : List Bytes} {m : Nat}

theorem getConsistencyProof_eq (hpos : 1 ≤ m) (hle : m ≤ leaves.length) :
    (newFromHashes sha256 leaves).getConsistencyProof m = .ok (generatedProof sha256 leaves m) := by
  have hne : leaves ≠ [] := length_pos_iff.1 (hpos.trans hle)
  have hrange : ¬((m : Int) ≤ 0 ∨ (leaves.length : Int) < m) := by omega
  simp only [Tree.getConsistencyProof, newFromHashes_leaves, if_neg hrange, consistencyPath,
    newFromHashes_levels sha256 hne, headD_levels, levels_ne_nil, or_false, rootHex_eq,
    Int.toNat_natCast, generatedProof, map_cons]

theorem complete_iff (hpos : 1 ≤ m) (hle : m ≤ leaves.length) :
    Complete sha256 leaves m ↔
      verifyConsistencyProof sha256 (some (generatedProof sha256 leaves m)) = .ok true := by
  unfold Complete
  rw [getConsistencyProof_eq hpos hle]
  constructor
  · rintro ⟨proof, hproof, h⟩
    cases hproof
    exact h
  · exact fun h => ⟨_, rfl, h⟩

theorem eq_of_decodeHash_encode {b b' : Bytes} (h : decodeHash (Hex.encode b) = some b') :
    b = b' := by
  have hdecode := (filter_eq_some_iff.1 h).1
  rwa [Hex.decode_encode, some.injEq] at hdecode

theorem eq_of_mapM_decodeHash {bs bs' : List Bytes}
    (h : (bs.map Hex.encode).mapM decodeHash = some bs') : bs = bs' := by
  induction bs generalizing bs' with
  | nil => simpa using h
  | cons b bs ih =>
    rw [map_cons, mapM_cons] at h
    obtain ⟨b', hb, h⟩ := bind_eq_some_iff.1 h
    obtain ⟨rest, hrest, h⟩ := bind_eq_some_iff.1 h
    cases h
    rw [eq_of_decodeHash_encode hb, ih hrest]

theorem Complete.rebuilds (h : Complete sha256 leaves m) (hpos : 1 ≤ m) (hlt : m < leaves.length) :
    Rebuilds sha256 leaves m := by
  have hsize : ¬(generatedProof sha256 leaves m).oldSize =
      (generatedProof sha256 leaves m).newSize :=
    fun heq => hlt.ne (Int.ofNat_inj.1 heq)
  rw [complete_iff hpos hlt.le, verifyConsistencyProof_iff sha256 (Int.natCast_pos.2 hpos)
    (Int.ofNat_le.2 hlt.le), if_neg hsize] at h
  obtain ⟨oldRoot, newRoot, first, path, hold, hnew, hpath, hroots⟩ := h
  rw [generatedProof, if_neg hlt.ne] at hpath
  obtain ⟨rfl, rfl⟩ := cons.inj (eq_of_mapM_decodeHash hpath)
  have hnew := eq_of_decodeHash_encode hnew
  have hold := eq_of_decodeHash_encode hold
  rw [← hold, ← hnew] at hroots
  exact hroots

/-! ## Boundary nodes -/

variable {level path : List Bytes} {k sn fn : Nat}

theorem boundaryNodes_of_lt (hpos : 1 ≤ m) (hlt : m < level.length) :
    boundaryNodes (levels (hashNode sha256) level) m level.length =
      (boundaryNode level m).toList ++
        boundaryNodes (levels (hashNode sha256) (pairUp (hashNode sha256) level)) ((m + 1) / 2)
          (pairUp (hashNode sha256) level).length := by
  have hne : levels (hashNode sha256) (pairUp (hashNode sha256) level) ≠ [] := levels_ne_nil _
  obtain ⟨next, rest, hnext⟩ := exists_cons_of_ne_nil hne
  rw [levels_of_lt (by omega), hnext, boundaryNodes, if_pos hlt, length_pairUp]

theorem boundaryNodes_of_ge (hle : level.length ≤ m) (levels : List (List Bytes)) :
    boundaryNodes levels m level.length = [] := by
  unfold boundaryNodes
  split
  · exact if_neg (by omega)
  · rfl

theorem boundaryNodes_one (level : List Bytes) (hne : level ≠ []) :
    boundaryNodes (levels (hashNode sha256) level) 1 level.length = [] := by
  induction hne using level_induction (hashNode sha256) with
  | one a => exact boundaryNodes_of_ge (by simp) _
  | up level _ hlt ih =>
    rw [boundaryNodes_of_lt le_rfl hlt, ih]
    simp [boundaryNode]

theorem mem_of_boundaryNode {x : Bytes} (h : boundaryNode level m = some x) :
    x ∈ level.drop m := by
  unfold boundaryNode at h
  split_ifs at h with hrange hnext
  · rw [mem_iff_getElem?]
    exact ⟨1, by rw [getElem?_drop, h]⟩
  · rw [mem_iff_getElem?]
    exact ⟨0, by rw [getElem?_drop, add_zero, h]⟩

variable {P : Bytes → Prop} {fr sr r r' : Bytes}

/-- The boundary nodes stand over leaves the old tree does not have. -/
theorem forall_boundaryNodes (hnode : ∀ a b, P a → P b → P (hashNode sha256 a b)) (hne : level ≠ [])
    (hpos : 1 ≤ m) (h : ∀ x ∈ level.drop m, P x) :
    ∀ x ∈ boundaryNodes (levels (hashNode sha256) level) m level.length, P x := by
  induction hne using level_induction (hashNode sha256) generalizing m with
  | one a =>
    rw [boundaryNodes_of_ge (by simpa using hpos)]
    nofun
  | up level _ _ ih =>
    rcases lt_or_ge m level.length with hlt | hge
    · rw [boundaryNodes_of_lt hpos hlt]
      intro x hx
      rcases mem_append.1 hx with hx | hx
      · exact h x (mem_of_boundaryNode (mem_toList.1 hx))
      · exact ih (by omega) (forall_drop_pairUp _ hnode h) x hx
    · rw [boundaryNodes_of_ge hge]
      nofun

/-- An old tree of `2 ^ k` leaves gives `k` boundary nodes. -/
theorem length_boundaryNodes (hlt : 2 ^ k < level.length) :
    (boundaryNodes (levels (hashNode sha256) level) (2 ^ k) level.length).length = k := by
  induction k generalizing level with
  | zero =>
    rw [pow_zero, boundaryNodes_one level (length_pos_iff.1 (by omega))]
    rfl
  | succ k ih =>
    have hpow : 2 ^ (k + 1) = 2 * 2 ^ k := Nat.pow_succ'
    have hhalf : (2 ^ (k + 1) + 1) / 2 = 2 ^ k := by omega
    obtain ⟨x, hx⟩ : ∃ x, boundaryNode level (2 ^ (k + 1)) = some x := by
      unfold boundaryNode
      rw [if_pos ⟨hlt, by omega, hlt⟩]
      split_ifs with hnext
      · exact ⟨_, getElem?_eq_getElem hnext⟩
      · exact ⟨_, getElem?_eq_getElem hlt⟩
    rw [boundaryNodes_of_lt Nat.one_le_two_pow hlt, hx, hhalf, length_append,
      ih (by rw [length_pairUp]; omega)]
    simp [add_comm]

/-- When the tree has grown by more than half of `2 ^ k`, the first new leaf is below none of the
boundary nodes. -/
theorem forall_boundaryNodes_pow (hnode : ∀ a b, P a → P b → P (hashNode sha256 a b))
    (hlen : 3 * 2 ^ k < 2 * level.length) (h : ∀ x ∈ level.drop (2 ^ k + 1), P x) :
    ∀ x ∈ boundaryNodes (levels (hashNode sha256) level) (2 ^ k) level.length, P x := by
  induction k generalizing level with
  | zero =>
    rw [pow_zero, boundaryNodes_one level (length_pos_iff.1 (by omega))]
    nofun
  | succ k ih =>
    have hpow : 2 ^ (k + 1) = 2 * 2 ^ k := Nat.pow_succ'
    have hone : 1 ≤ 2 ^ k := Nat.one_le_two_pow
    have hhalf : (2 ^ (k + 1) + 1) / 2 = 2 ^ k := by omega
    have hnext : boundaryNode level (2 ^ (k + 1)) = level[2 ^ (k + 1) + 1]? := by
      unfold boundaryNode
      rw [if_pos (by omega), if_pos (by omega)]
    rw [boundaryNodes_of_lt Nat.one_le_two_pow (by omega), hnext, hhalf]
    intro x hx
    rcases mem_append.1 hx with hx | hx
    · refine h x (mem_iff_getElem?.2 ⟨0, ?_⟩)
      rw [getElem?_drop]
      exact mem_toList.1 hx
    · refine ih (by rw [length_pairUp]; omega) ?_ x hx
      have hup := forall_drop_pairUp (hashNode sha256) hnode h
      rwa [show (2 ^ (k + 1) + 1 + 1) / 2 = 2 ^ k + 1 by omega] at hup

/-! ## Walks -/

/-- With the first number at zero the walk only joins nodes on the right of the new root, no more
than the second number has binary digits. -/
theorem walk_zero (h : walk sha256 path 0 sn fr sr = some (r, r')) :
    r' = path.foldl (hashNode sha256) sr ∧ (path ≠ [] → 2 ^ path.length ≤ 2 * sn) := by
  induction path generalizing sn sr with
  | nil =>
    rw [walk] at h
    split_ifs at h with hsn
    cases h
    exact ⟨rfl, fun hne => (hne rfl).elim⟩
  | cons c path ih =>
    rw [walk] at h
    split_ifs at h with hsn hlast
    · exact absurd (hlast.resolve_left id).symm hsn
    · obtain ⟨hr, hle⟩ := ih h
      have hpow : 2 ^ (path.length + 1) = 2 * 2 ^ path.length := Nat.pow_succ'
      rw [length_cons]
      refine ⟨hr, fun _ => ?_⟩
      by_cases hpath : path = []
      · subst hpath
        rw [length_nil]
        omega
      · have := hle hpath
        omega

theorem shiftZeros_le (h : fn ≤ sn) : (shiftZeros fn sn).1 ≤ (shiftZeros fn sn).2 := by
  fun_induction shiftZeros fn sn with
  | case1 fn sn _ ih => exact ih (Nat.div_le_div_right h)
  | case2 => exact h

theorem shiftOnes_le (h : fn ≤ sn) : (shiftOnes fn sn).1 ≤ (shiftOnes fn sn).2 := by
  fun_induction shiftOnes fn sn with
  | case1 fn sn _ ih => exact ih (Nat.div_le_div_right h)
  | case2 => exact h

theorem shiftOnes_zero (h : (shiftOnes fn sn).1 = 0) :
    ∃ k, fn + 1 = 2 ^ k ∧ (shiftOnes fn sn).2 = sn / 2 ^ k := by
  fun_induction shiftOnes fn sn with
  | case1 fn sn hodd ih =>
    obtain ⟨k, hk, hshift⟩ := ih h
    refine ⟨k + 1, ?_, ?_⟩
    · rw [Nat.pow_succ']
      omega
    · rw [hshift, Nat.div_div_eq_div_mul, Nat.pow_succ']
  | case2 fn sn _ => exact ⟨0, by simpa using h, by simp⟩

/-- A walk that has to join nodes on the left of the old root ends with what they are marked with.
-/
theorem walk_marked {mark : Bytes} (hmark : ∀ x, hashNode sha256 mark x = mark)
    (hpath : ∀ c ∈ path, c = mark) (hle : fn ≤ sn) (hfr : fn ≠ 0 ∨ fr = mark)
    (h : walk sha256 path fn sn fr sr = some (r, r')) : r = mark := by
  induction path generalizing fn sn fr sr with
  | nil =>
    rw [walk] at h
    split_ifs at h with hsn
    cases h
    exact hfr.resolve_left (by omega)
  | cons c path ih =>
    obtain rfl := hpath c mem_cons_self
    have hrest := fun x hx => hpath x (mem_cons_of_mem _ hx)
    rw [walk] at h
    split_ifs at h with hsn hlast
    · exact ih hrest (Nat.div_le_div_right (shiftZeros_le hle)) (.inr (hmark fr)) h
    · refine ih hrest (Nat.div_le_div_right hle) (hfr.imp_left fun hfn => ?_) h
      omega

/-! ## Which proofs are accepted -/

/-- A hash that remembers only whether a byte other than zero was hashed after the first one. -/
def touched (bytes : Bytes) : Bytes :=
  if (bytes.drop 1).all (· = 0) then sampleHash 0 else sampleHash 1

theorem length_touched (bytes : Bytes) : (touched bytes).length = sha256Size := by
  unfold touched
  split_ifs
  · rfl
  · rfl

theorem hashNode_touched (a b : Bytes) :
    hashNode touched a b = if (a ++ b).all (· = 0) then sampleHash 0 else sampleHash 1 := rfl

theorem touched_zero : hashNode touched (sampleHash 0) (sampleHash 0) = sampleHash 0 := by
  decide

theorem touched_left (x : Bytes) : hashNode touched (sampleHash 1) x = sampleHash 1 := by
  rw [hashNode_touched, if_neg]
  rw [all_append]
  simp [sampleHash]

theorem touched_right (x : Bytes) : hashNode touched x (sampleHash 1) = sampleHash 1 := by
  rw [hashNode_touched, if_neg]
  rw [all_append]
  simp [sampleHash]

theorem foldl_touched (h : ∀ c ∈ path, c = sampleHash 0) :
    path.foldl (hashNode touched) (sampleHash 0) = sampleHash 0 := by
  induction path with
  | nil => rfl
  | cons c path ih =>
    rw [h c mem_cons_self, foldl_cons, touched_zero]
    exact ih fun x hx => h x (mem_cons_of_mem _ hx)

/-- Leaves of zeros, then others. -/
def zerosThen (m : Nat) (others : List Bytes) : List Bytes :=
  replicate m (sampleHash 0) ++ others

theorem root_zeros (hpos : 1 ≤ m) (others : List Bytes) :
    (newFromHashes touched ((zerosThen m others).take m)).root = sampleHash 0 := by
  have htake : (zerosThen m others).take m = replicate m (sampleHash 0) := by
    simp [zerosThen]
  have hne : replicate m (sampleHash 0) ≠ [] := by simpa using by omega
  rw [htake]
  refine top_of_forall ?_ hne (fun x hx => eq_of_mem_replicate hx) (newFromHashes_root _ hne)
  rintro a b rfl rfl
  exact touched_zero

variable {n : Nat}

/-- An old tree whose size is no power of two: the old root is hashed with nodes of new leaves. -/
theorem not_rebuilds_of_ne (hpos : 1 ≤ m) (hlt : m < n) (hfn : (shiftOnes (m - 1) (n - 1)).1 ≠ 0) :
    ¬Rebuilds touched (zerosThen m (replicate (n - m) (sampleHash 1))) m := by
  intro h
  have hlen : (zerosThen m (replicate (n - m) (sampleHash 1))).length = n := by
    simp [zerosThen]
    omega
  have hmarked : ∀ c ∈ boundaryNodes (levels (hashNode touched)
      (zerosThen m (replicate (n - m) (sampleHash 1)))) m
      (zerosThen m (replicate (n - m) (sampleHash 1))).length, c = sampleHash 1 := by
    refine forall_boundaryNodes ?_ (length_pos_iff.1 (by omega)) hpos ?_
    · rintro a b rfl rfl
      exact touched_left _
    · intro x hx
      refine eq_of_mem_replicate (n := n - m) ?_
      simpa [zerosThen] using hx
  rw [Rebuilds, root_zeros hpos, rebuildRoots] at h
  have hroot := walk_marked touched_left hmarked (shiftOnes_le (by omega))
    (.inl (by rwa [hlen])) h
  exact absurd hroot (by decide)

/-- The walk of an old tree of `2 ^ k` leaves and its boundary nodes. -/
theorem Rebuilds.walk_pow (h : Rebuilds sha256 leaves (2 ^ k)) (hlt : 2 ^ k < leaves.length)
    (hfn : (shiftOnes (2 ^ k - 1) (leaves.length - 1)).1 = 0) :
    (newFromHashes sha256 leaves).root =
        (boundaryNodes (levels (hashNode sha256) leaves) (2 ^ k) leaves.length).foldl
          (hashNode sha256) (newFromHashes sha256 (leaves.take (2 ^ k))).root ∧
      (k ≠ 0 → 2 ^ k ≤ 2 * (shiftOnes (2 ^ k - 1) (leaves.length - 1)).2) := by
  rw [Rebuilds, rebuildRoots, hfn] at h
  obtain ⟨hroot, hsn⟩ := walk_zero h
  have hlen : (boundaryNodes (levels (hashNode sha256) leaves) (2 ^ k) leaves.length).length = k :=
    length_boundaryNodes hlt
  rw [hlen] at hsn
  refine ⟨hroot, fun hk => hsn fun hnil => hk ?_⟩
  rw [← hlen, hnil]
  rfl

/-- An old tree of `2 ^ k` leaves that has grown by more than half: the first new leaf is hashed
nowhere. -/
theorem not_rebuilds_of_pow (hlt : 2 ^ k < n) (hlen : 3 * 2 ^ k < 2 * n)
    (hfn : (shiftOnes (2 ^ k - 1) (n - 1)).1 = 0) :
    ¬Rebuilds touched
      (zerosThen (2 ^ k) (sampleHash 1 :: replicate (n - 2 ^ k - 1) (sampleHash 0))) (2 ^ k) := by
  intro h
  have hn : (zerosThen (2 ^ k)
      (sampleHash 1 :: replicate (n - 2 ^ k - 1) (sampleHash 0))).length = n := by
    simp [zerosThen]
    omega
  have hne : zerosThen (2 ^ k)
      (sampleHash 1 :: replicate (n - 2 ^ k - 1) (sampleHash 0)) ≠ [] :=
    length_pos_iff.1 (by omega)
  obtain ⟨hroot, -⟩ := h.walk_pow (by omega) (by rwa [hn])
  rw [root_zeros Nat.one_le_two_pow, foldl_touched] at hroot
  · -- the new root has hashed the first new leaf
    have hmark := top_of_exists (P := (· = sampleHash 1)) (fun a b ha => ha ▸ touched_left b)
      (fun a b hb => hb ▸ touched_right a) hne ⟨sampleHash 1, by simp [zerosThen], rfl⟩
      (newFromHashes_root touched hne)
    exact absurd (hroot.symm.trans hmark) (by decide)
  · refine forall_boundaryNodes_pow ?_ (by omega) ?_
    · rintro a b rfl rfl
      exact touched_zero
    · intro x hx
      refine eq_of_mem_replicate (n := n - 2 ^ k - 1) ?_
      simpa [zerosThen, drop_append] using hx

/-- With hashes of the right size the generated proof is accepted when it rebuilds the roots. -/
theorem Rebuilds.complete (h : Rebuilds sha256 leaves m)
    (hhash : ∀ bytes, (sha256 bytes).length = sha256Size) (hpos : 1 ≤ m) (hlt : m < leaves.length)
    (hleaves : ∀ leaf ∈ leaves, leaf.length = sha256Size) : Complete sha256 leaves m := by
  have hnode : ∀ a b : Bytes, a.length = sha256Size → b.length = sha256Size →
      (hashNode sha256 a b).length = sha256Size := fun _ _ _ _ => hhash _
  have hroot : ∀ {xs : List Bytes}, xs ≠ [] → (∀ x ∈ xs, x.length = sha256Size) →
      (newFromHashes sha256 xs).root.length = sha256Size := fun hne hxs =>
    top_of_forall hnode hne hxs (newFromHashes_root sha256 hne)
  have hne : leaves ≠ [] := length_pos_iff.1 (by omega)
  have hold : (newFromHashes sha256 (leaves.take m)).root.length = sha256Size := by
    refine hroot ?_ fun x hx => hleaves x (mem_of_mem_take hx)
    exact length_pos_iff.1 (by rw [length_take]; omega)
  have hsize : ¬(generatedProof sha256 leaves m).oldSize =
      (generatedProof sha256 leaves m).newSize :=
    fun heq => hlt.ne (Int.ofNat_inj.1 heq)
  rw [complete_iff hpos hlt.le, verifyConsistencyProof_iff sha256 (Int.natCast_pos.2 hpos)
    (Int.ofNat_le.2 hlt.le), if_neg hsize]
  refine ⟨_, _, _, _, decodeHash_encode hold, decodeHash_encode (hroot hne hleaves), ?_, h⟩
  rw [generatedProof, if_neg hlt.ne, mapM_decodeHash]
  intro x hx
  rcases mem_cons.1 hx with rfl | hx
  · exact hold
  · exact forall_boundaryNodes hnode hne hpos (fun y hy => hleaves y (mem_of_mem_drop hy)) x hx

/-- A tree of two leaves that has grown by one. -/
theorem rebuilds_two (a b c : Bytes) : Rebuilds sha256 [a, b, c] 2 := by
  have hlevels : levels (hashNode sha256) [a, b, c] =
      [[a, b, c], [hashNode sha256 a b, c], [hashNode sha256 (hashNode sha256 a b) c]] := by
    rw [levels_of_lt (by simp)]
    exact congrArg _ (levels_pair _ _)
  have hroot : (newFromHashes sha256 [a, b, c]).root =
      hashNode sha256 (hashNode sha256 a b) c := by
    have hroot := newFromHashes_root sha256 (cons_ne_nil a [b, c])
    rw [top, hlevels] at hroot
    exact (some.inj hroot).symm
  have hshift : shiftOnes (2 - 1) ([a, b, c].length - 1) = (0, 1) := by
    show shiftOnes 1 2 = (0, 1)
    rw [shiftOnes, if_pos (by decide), shiftOnes, if_neg (by decide)]
  have hpath : boundaryNodes [[a, b, c], [hashNode sha256 a b, c],
      [hashNode sha256 (hashNode sha256 a b) c]] 2 [a, b, c].length = [c] := by
    simp [boundaryNodes, boundaryNode]
  have hold : (newFromHashes sha256 ([a, b, c].take 2)).root = hashNode sha256 a b :=
    newFromHashes_two a b
  rw [Rebuilds, rebuildRoots, hshift, hlevels, hroot, hpath, hold]
  rfl

/-- Both sizes are equal. -/
theorem complete_self (hne : leaves ≠ []) : Complete sha256 leaves leaves.length := by
  have hpos : 1 ≤ leaves.length := length_pos_iff.2 hne
  rw [complete_iff hpos le_rfl, verifyConsistencyProof_iff sha256 (Int.natCast_pos.2 hpos) le_rfl]
  simp [generatedProof]

/-- The only power of two whose boundary nodes fit the walk of a slightly larger tree. -/
theorem sizes_of_fit (hlt : 2 ^ k < n) (hgrown : 2 * n ≤ 3 * 2 ^ k)
    (hfit : k ≠ 0 → 2 ^ k ≤ 2 * ((n - 1) / 2 ^ k)) : 2 ^ k = 2 ∧ n = 3 := by
  have hk : k ≠ 0 := by
    rintro rfl
    omega
  have hdiv : 2 ^ k * ((n - 1) / 2 ^ k) ≤ n - 1 := Nat.mul_div_le _ _
  have hsquare : 2 ^ k * 2 ^ k < 3 * 2 ^ k := by
    have := Nat.mul_le_mul_left (2 ^ k) (hfit hk)
    rw [Nat.mul_left_comm] at this
    omega
  have hsmall : 2 ^ k < 3 := Nat.lt_of_mul_lt_mul_right hsquare
  omega

/-- **The sizes whose proofs are accepted.** -/
theorem consistency_complete_iff {m n : Nat} (hpos : 1 ≤ m) (hle : m ≤ n) :
    (∀ sha256 : Bytes → Bytes, (∀ bytes, (sha256 bytes).length = sha256Size) →
      ∀ leaves : List Bytes, leaves.length = n → (∀ leaf ∈ leaves, leaf.length = sha256Size) →
        Complete sha256 leaves m) ↔
      m = n ∨ m = 2 ∧ n = 3 := by
  constructor
  · intro h
    by_contra hcond
    have hlt : m < n := by omega
    have hsize : ∀ others, (∀ x ∈ others, x = sampleHash 0 ∨ x = sampleHash 1) →
        others.length = n - m → Rebuilds touched (zerosThen m others) m := by
      intro others hothers hlen
      have hn : (zerosThen m others).length = n := by
        simp [zerosThen]
        omega
      refine (h touched length_touched _ hn fun leaf hleaf => ?_).rebuilds hpos (by omega)
      rcases mem_append.1 hleaf with hleaf | hleaf
      · rw [eq_of_mem_replicate hleaf]
        rfl
      · rcases hothers leaf hleaf with rfl | rfl
        · rfl
        · rfl
    by_cases hfn : (shiftOnes (m - 1) (n - 1)).1 = 0
    · obtain ⟨k, hk, hsn⟩ := shiftOnes_zero hfn
      obtain rfl : m = 2 ^ k := by omega
      have hothers : ∀ x ∈ sampleHash 1 :: replicate (n - 2 ^ k - 1) (sampleHash 0),
          x = sampleHash 0 ∨ x = sampleHash 1 := by
        intro x hx
        rcases mem_cons.1 hx with rfl | hx
        · exact .inr rfl
        · exact .inl (eq_of_mem_replicate hx)
      have hrebuilds := hsize _ hothers (by simp; omega)
      have hn : (zerosThen (2 ^ k)
          (sampleHash 1 :: replicate (n - 2 ^ k - 1) (sampleHash 0))).length = n := by
        simp [zerosThen]
        omega
      obtain ⟨-, hfit⟩ := hrebuilds.walk_pow (by omega) (by rwa [hn])
      rw [hn, hsn] at hfit
      have hgrown : 2 * n ≤ 3 * 2 ^ k :=
        not_lt.1 fun hlen => not_rebuilds_of_pow hlt hlen hfn hrebuilds
      exact hcond (.inr (sizes_of_fit hlt hgrown hfit))
    · refine not_rebuilds_of_ne hpos hlt hfn (hsize _ (fun x hx => ?_) (length_replicate ..))
      exact .inr (eq_of_mem_replicate hx)
  · rintro (rfl | ⟨rfl, rfl⟩) sha256 hhash leaves hlen hleaves
    · rw [← hlen]
      exact complete_self (length_pos_iff.1 (by omega))
    · obtain ⟨a, b, c, rfl⟩ := length_eq_three.1 hlen
      exact (rebuilds_two a b c).complete hhash (by decide) (by simp) hleaves

/-- Two leaves and a third. -/
theorem consistency_complete_two_three :
    Complete Digest.sha256 [sampleHash 0, sampleHash 1, sampleHash 2] 2 :=
  (consistency_complete_iff (by decide) (by decide)).2 (.inr ⟨rfl, rfl⟩) Digest.sha256
    (fun _ => rfl) _ rfl (by decide)

/-- **The first growth is refused**: the proof from one leaf to two holds the old root only, and the
walk ends before it has reached the new one. -/
theorem grown_proof_refused :
    ∃ proof, (newFromHashes Digest.sha256 [sampleHash 0, sampleHash 1]).getConsistencyProof 1 =
        .ok proof ∧ verifyConsistencyProof Digest.sha256 (some proof) = .ok false := by
  have hroots : rebuildRoots Digest.sha256 1 2 (sampleHash 0) [] = none := by
    show walk _ _ (shiftOnes 0 1).1 (shiftOnes 0 1).2 _ _ = _
    rw [shiftOnes_grown]
    rfl
  have hpath : boundaryNodes (levels (hashNode Digest.sha256) [sampleHash 0, sampleHash 1]) 1
      [sampleHash 0, sampleHash 1].length = [] := boundaryNodes_one _ (cons_ne_nil _ _)
  have hold : (newFromHashes Digest.sha256 ([sampleHash 0, sampleHash 1].take 1)).root =
      sampleHash 0 := newFromHashes_one _
  refine ⟨_, getConsistencyProof_eq (m := 1) le_rfl (by decide), ?_⟩
  have hsame : ¬1 = [sampleHash 0, sampleHash 1].length := by decide
  have hread : ([sampleHash 0].map Hex.encode).mapM decodeHash = some [sampleHash 0] :=
    mapM_decodeHash (by decide)
  rw [verifyConsistencyProof, if_neg (by decide), if_neg (by decide), generatedProof, hpath, hold,
    newFromHashes_two, if_neg hsame]
  simp only [decodeHash_encode (show (sampleHash 0).length = sha256Size from rfl),
    decodeHash_encode (show (hashNode Digest.sha256 (sampleHash 0) (sampleHash 1)).length =
      sha256Size from rfl), hread]
  rw [show rebuildRoots _ (Int.toNat _) (Int.toNat _) _ _ = none from hroots]

end MxKeys.Merkle
