/-
# MxKeys.Lib.HashTree — hash trees built level by level.

A tree over a list of digests: neighbours are joined two by two, a last one without a neighbour
moves up as it is, and so on until one digest is left.  The digests are of any type and joined by
any function.

What such a tree commits to follows from one fact about a single level: a level of known length is
determined by the level above when the joining function is injective on the pairs it was applied to
(`eq_of_pairUp_eq`).  No injectivity is asked beyond those pairs, since no function into digests of
a fixed size is injective on all pairs of digests.

The root is also the hash of RFC 6962, which splits the list at the largest power of two smaller
than its length (`top_eq_treeHash`): that split is even as soon as there are three digests, so both
sides can go up a level on their own.

`Shape` is the same tree as a binary tree, for walks from the root along a list of directions.
-/
import Mathlib.Algebra.Group.Nat.Defs
import Mathlib.Data.List.Induction
import Mathlib.Data.Nat.Log
import Mathlib.Data.Option.NAry
import Mathlib.Data.Set.Function
import Mathlib.Order.Bounds.Basic

namespace MxKeys.Lib.HashTree

open List

variable {D E : Type*} (node : D → D → D)

/-! ## One level -/

/-- The level above: neighbours joined, a last one without a neighbour as it is. -/
def pairUp : List D → List D
  | [] => []
  | [a] => [a]
  | a :: b :: rest => node a b :: pairUp rest

/-- The pairs joined on the way up from a level. -/
def levelPairs : List D → List (D × D)
  | [] => []
  | [_] => []
  | a :: b :: rest => (a, b) :: levelPairs rest

theorem length_pairUp (level : List D) : (pairUp node level).length = (level.length + 1) / 2 := by
  fun_induction pairUp node level with
  | case1 => simp
  | case2 => simp
  | case3 a b rest ih =>
    simp only [length_cons, ih]
    omega

variable {level left : List D} {P : D → Prop} {i : Nat}

theorem pairUp_ne_nil (h : level ≠ []) : pairUp node level ≠ [] := by
  have hpos := length_pos_iff.2 h
  rw [← length_pos_iff, length_pairUp]
  omega

theorem pairUp_append (h : left.length % 2 = 0) (right : List D) :
    pairUp node (left ++ right) = pairUp node left ++ pairUp node right := by
  fun_induction pairUp node left with
  | case1 => rfl
  | case2 => simp at h
  | case3 a b rest ih =>
    have h : rest.length % 2 = 0 := by
      simp only [length_cons] at h
      omega
    show node a b :: pairUp node (rest ++ right) = node a b :: pairUp node rest ++ pairUp node right
    rw [ih h, cons_append]

theorem levelPairs_append (h : left.length % 2 = 0) (right : List D) :
    levelPairs (left ++ right) = levelPairs left ++ levelPairs right := by
  fun_induction levelPairs left with
  | case1 => rfl
  | case2 => simp at h
  | case3 a b rest ih =>
    have h : rest.length % 2 = 0 := by
      simp only [length_cons] at h
      omega
    show (a, b) :: levelPairs (rest ++ right) = (a, b) :: levelPairs rest ++ levelPairs right
    rw [ih h, cons_append]

/-- What every node from a place on has, and joining keeps, every node above has. -/
theorem forall_drop_pairUp (hnode : ∀ a b, P a → P b → P (node a b)) (h : ∀ x ∈ level.drop i, P x) :
    ∀ x ∈ (pairUp node level).drop ((i + 1) / 2), P x := by
  fun_induction pairUp node level generalizing i with
  | case1 => simp
  | case2 a =>
    match i, h with
    | 0, h => exact h
    | i + 1, h =>
      rw [drop_eq_nil_of_le (by simp; omega)]
      nofun
  | case3 a b rest ih =>
    match i, h with
    | 0, h =>
      have hpair := hnode a b (h a (by simp)) (h b (by simp))
      have hrest := ih (i := 0) fun x hx => h x (by simpa using .inr (.inr hx))
      simpa using ⟨hpair, hrest⟩
    | 1, h =>
      have hrest := ih (i := 0) fun x hx => h x (by simpa using .inr hx)
      simpa using hrest
    | i + 2, h =>
      have hrest := ih (i := i) h
      rwa [show (i + 2 + 1) / 2 = (i + 1) / 2 + 1 by omega]

/-- What a node has, and joining keeps from either side, some node above has. -/
theorem exists_pairUp (hleft : ∀ a b, P a → P (node a b)) (hright : ∀ a b, P b → P (node a b))
    (h : ∃ x ∈ level, P x) :
    ∃ x ∈ pairUp node level, P x := by
  fun_induction pairUp node level with
  | case1 => exact h
  | case2 a => exact h
  | case3 a b rest ih =>
    obtain ⟨x, hx, hP⟩ := h
    rcases mem_cons.1 hx with rfl | hx
    · exact ⟨_, mem_cons_self, hleft _ _ hP⟩
    rcases mem_cons.1 hx with rfl | hx
    · exact ⟨_, mem_cons_self, hright _ _ hP⟩
    obtain ⟨y, hy, hPy⟩ := ih ⟨x, hx, hP⟩
    exact ⟨y, mem_cons_of_mem _ hy, hPy⟩

/-- A function that respects the joining maps levels to levels. -/
theorem pairUp_map {node} {node' : E → E → E} {f : D → E}
    (hf : ∀ a b, f (node a b) = node' (f a) (f b)) (level : List D) :
    pairUp node' (level.map f) = (pairUp node level).map f := by
  fun_induction pairUp node level with
  | case1 => rfl
  | case2 => rfl
  | case3 a b rest ih =>
    show node' (f a) (f b) :: pairUp node' (rest.map f) = f (node a b) :: (pairUp node rest).map f
    rw [ih, hf]

/-- The node above a pair. -/
theorem getElem?_pairUp {a b : D} (ha : level[2 * i]? = some a) (hb : level[2 * i + 1]? = some b) :
    (pairUp node level)[i]? = some (node a b) := by
  fun_induction pairUp node level generalizing i with
  | case1 => cases ha
  | case2 x => cases hb
  | case3 x y rest ih =>
    cases i with
    | zero =>
      cases ha
      cases hb
      rfl
    | succ i => exact ih ha hb

/-- The node above one without a neighbour is that node. -/
theorem getElem?_pairUp_last {a : D} (ha : level[2 * i]? = some a) (hb : level[2 * i + 1]? = none) :
    (pairUp node level)[i]? = some a := by
  fun_induction pairUp node level generalizing i with
  | case1 => cases ha
  | case2 x =>
    cases i with
    | zero => exact ha
    | succ i => cases ha
  | case3 x y rest ih =>
    cases i with
    | zero => cases hb
    | succ i => exact ih ha hb

/-- The joining function tells the pairs of a set apart. -/
abbrev Separates (pairs : Set (D × D)) : Prop := pairs.InjOn fun p => node p.1 p.2

/-- **A level is determined by the level above.** -/
theorem eq_of_pairUp_eq {pairs : Set (D × D)} (hsep : Separates node pairs) {xs ys : List D}
    (hlen : xs.length = ys.length) (hxs : ∀ p ∈ levelPairs xs, p ∈ pairs)
    (hys : ∀ p ∈ levelPairs ys, p ∈ pairs) (h : pairUp node xs = pairUp node ys) : xs = ys := by
  fun_induction pairUp node xs generalizing ys with
  | case1 => exact (length_eq_zero_iff.1 hlen.symm).symm
  | case2 a =>
    obtain ⟨b, rfl⟩ := length_eq_one_iff.1 hlen.symm
    exact h
  | case3 a b rest ih =>
    match ys, hlen with
    | c :: d :: rest', hlen =>
      obtain ⟨hnode, hrest⟩ := cons.inj h
      have hpair : (a, b) = (c, d) :=
        hsep (hxs _ mem_cons_self) (hys _ mem_cons_self) hnode
      cases hpair
      rw [ih (by simpa using hlen) (fun p hp => hxs p (mem_cons_of_mem _ hp))
        (fun p hp => hys p (mem_cons_of_mem _ hp)) hrest]

/-! ## All levels -/

/-- The levels of the tree, from the leaves to the root. -/
def levels (level : List D) : List (List D) :=
  if 1 < level.length then level :: levels (pairUp node level) else [level]
termination_by level.length
decreasing_by
  rw [length_pairUp]
  omega

/-- The root. -/
def top (level : List D) : Option D := (levels node level).getLast?.bind head?

/-- All pairs joined in the tree. -/
def treePairs (level : List D) : List (D × D) := (levels node level).flatMap levelPairs

variable {node}

theorem levels_of_lt (h : 1 < level.length) :
    levels node level = level :: levels node (pairUp node level) := by
  rw [levels, if_pos h]

theorem levels_ne_nil (level : List D) : levels node level ≠ [] := by
  unfold levels
  split_ifs
  · exact cons_ne_nil _ _
  · exact cons_ne_nil _ _

theorem headD_levels (level : List D) : (levels node level).headD [] = level := by
  unfold levels
  split_ifs
  · rfl
  · rfl

theorem levels_singleton (a : D) : levels node [a] = [[a]] := by
  rw [levels, if_neg (by simp)]

theorem top_singleton (a : D) : top node [a] = some a := by
  rw [top, levels_singleton]
  rfl

theorem top_of_lt (h : 1 < level.length) :
    top node level = top node (pairUp node level) := by
  rw [top, levels_of_lt h, getLast?_cons_of_ne_nil (levels_ne_nil _)]
  rfl

theorem treePairs_of_lt (h : 1 < level.length) :
    treePairs node level = levelPairs level ++ treePairs node (pairUp node level) := by
  rw [treePairs, levels_of_lt h]
  rfl

theorem levels_pair (a b : D) : levels node [a, b] = [[a, b], [node a b]] := by
  rw [levels_of_lt (by simp)]
  exact congrArg _ (levels_singleton _)

/-- Induction from the root of a tree down to its leaves. -/
theorem level_induction (node : D → D → D) {motive : ∀ level : List D, level ≠ [] → Prop}
    (one : ∀ a, motive [a] (cons_ne_nil a []))
    (up : ∀ level h, 1 < level.length → motive (pairUp node level) (pairUp_ne_nil node h) →
      motive level h) {level : List D} (h : level ≠ []) : motive level h := by
  induction hn : level.length using Nat.strong_induction_on generalizing level with
  | _ n ih =>
    rcases lt_or_ge 1 level.length with hlt | hle
    · have hlen := length_pairUp node level
      exact up level h hlt (ih _ (by omega) (pairUp_ne_nil node h) rfl)
    · have hpos := length_pos_iff.2 h
      obtain ⟨a, rfl⟩ := length_eq_one_iff.1 (by omega : level.length = 1)
      exact one a

theorem exists_top (node : D → D → D) (h : level ≠ []) :
    ∃ d, top node level = some d := by
  induction h using level_induction node with
  | one a => exact ⟨a, top_singleton a⟩
  | up level h hlt ih => rwa [top_of_lt hlt]

theorem top_of_forall (hnode : ∀ a b, P a → P b → P (node a b)) (hne : level ≠ [])
    (h : ∀ x ∈ level, P x) {r : D} (hr : top node level = some r) : P r := by
  induction hne using level_induction node with
  | one a =>
    rw [top_singleton] at hr
    cases hr
    exact h _ mem_cons_self
  | up level _ hlt ih =>
    rw [top_of_lt hlt] at hr
    exact ih (forall_drop_pairUp node hnode (i := 0) h) hr

theorem top_of_exists (hleft : ∀ a b, P a → P (node a b)) (hright : ∀ a b, P b → P (node a b))
    (hne : level ≠ []) (h : ∃ x ∈ level, P x) {r : D} (hr : top node level = some r) : P r := by
  induction hne using level_induction node with
  | one a =>
    rw [top_singleton] at hr
    cases hr
    obtain ⟨x, hx, hP⟩ := h
    rwa [← mem_singleton.1 hx]
  | up level _ hlt ih =>
    rw [top_of_lt hlt] at hr
    exact ih (exists_pairUp node hleft hright h) hr

theorem top_map {node' : E → E → E} {f : D → E} (hf : ∀ a b, f (node a b) = node' (f a) (f b))
    (h : level ≠ []) : top node' (level.map f) = (top node level).map f := by
  induction h using level_induction node with
  | one a => rw [top_singleton, map_singleton, top_singleton, Option.map_some]
  | up level h hlt ih =>
    rw [top_of_lt (by rwa [length_map]), top_of_lt hlt, pairUp_map hf, ih]

/-! ## The same tree by splitting

A list is split at the largest power of two smaller than its length, as in RFC 6962. -/

/-- The largest power of two smaller than `n`, for `n` of at least two. -/
def largestPowerBelow (n : Nat) : Nat := 2 ^ Nat.log 2 (n - 1)

variable {n : Nat}

theorem largestPowerBelow_isGreatest (h : 1 < n) :
    IsGreatest {m | (∃ j, m = 2 ^ j) ∧ m < n} (largestPowerBelow n) := by
  have hle := Nat.pow_log_le_self 2 (show n - 1 ≠ 0 by omega)
  refine ⟨⟨⟨_, rfl⟩, ?_⟩, ?_⟩
  · unfold largestPowerBelow
    omega
  · rintro m ⟨⟨j, rfl⟩, hlt⟩
    exact Nat.pow_le_pow_right Nat.two_pos (Nat.le_log_of_pow_le Nat.one_lt_two (by omega))

theorem largestPowerBelow_lt (h : 1 < n) : largestPowerBelow n < n :=
  (largestPowerBelow_isGreatest h).1.2

theorem largestPowerBelow_pos (n : Nat) : 0 < largestPowerBelow n := Nat.two_pow_pos _

/-- Above two leaves the split is even, and its half splits the level above. -/
theorem largestPowerBelow_half (h : 2 < n) :
    largestPowerBelow n = 2 * largestPowerBelow ((n + 1) / 2) := by
  have hlog : Nat.log 2 (n - 1) = Nat.log 2 ((n + 1) / 2 - 1) + 1 := by
    rw [Nat.log_of_one_lt_of_le Nat.one_lt_two (by omega),
      show (n - 1) / 2 = (n + 1) / 2 - 1 by omega]
  rw [largestPowerBelow, hlog, Nat.pow_succ, Nat.mul_comm]
  rfl

variable (node) in
/-- The Merkle tree hash. -/
def treeHash (level : List D) : Option D :=
  if _h : 1 < level.length then
    Option.map₂ node (treeHash (level.take (largestPowerBelow level.length)))
      (treeHash (level.drop (largestPowerBelow level.length)))
  else level.head?
termination_by level.length
decreasing_by
  · rw [length_take]
    exact lt_of_le_of_lt (Nat.min_le_left _ _) (largestPowerBelow_lt ‹1 < level.length›)
  · rw [length_drop]
    have hpos := largestPowerBelow_pos level.length
    omega

theorem treeHash_singleton (a : D) : treeHash node [a] = some a := by
  rw [treeHash, dif_neg (by simp)]
  rfl

theorem treeHash_append {right : List D} (hright : right ≠ [])
    (hleft : left.length = largestPowerBelow (left.length + right.length)) :
    treeHash node (left ++ right) =
      Option.map₂ node (treeHash node left) (treeHash node right) := by
  have hpos := largestPowerBelow_pos (left.length + right.length)
  have hpos' := length_pos_iff.2 hright
  have hsplit : largestPowerBelow (left ++ right).length = left.length := by
    rw [length_append, ← hleft]
  rw [treeHash, dif_pos (by rw [length_append]; omega), hsplit, take_left, drop_left]

/-- **Joining neighbours first does not change the hash.** -/
theorem treeHash_pairUp (level : List D) :
    treeHash node (pairUp node level) = treeHash node level := by
  induction hn : level.length using Nat.strong_induction_on generalizing level with
  | _ n ih =>
    rcases lt_or_ge 2 n with hlt | hle
    · -- the split is even, so that both parts go up on their own
      obtain ⟨left, right, rfl, hleft⟩ : ∃ left right, level = left ++ right ∧
          left.length = largestPowerBelow n := by
        refine ⟨_, _, (take_append_drop (largestPowerBelow n) level).symm, ?_⟩
        rw [length_take, hn]
        exact min_eq_left (largestPowerBelow_lt (by omega)).le
      rw [length_append] at hn
      have hhalf := largestPowerBelow_half hlt
      have hbelow := largestPowerBelow_lt (show 1 < n by omega)
      have hright : right ≠ [] := by
        rintro rfl
        rw [length_nil] at hn
        omega
      have hrightlen := length_pos_iff.2 hright
      have hpos := largestPowerBelow_pos n
      have hupleft : (pairUp node left).length = largestPowerBelow ((n + 1) / 2) := by
        rw [length_pairUp]
        omega
      have hsum : (pairUp node left).length + (pairUp node right).length = (n + 1) / 2 := by
        rw [length_pairUp, length_pairUp]
        omega
      rw [pairUp_append node (by omega),
        treeHash_append (pairUp_ne_nil node hright) (by rw [hsum, hupleft]),
        treeHash_append hright (by rw [hn, hleft]), ih left.length (by omega) left rfl,
        ih right.length (by omega) right rfl]
    · rcases level with _ | ⟨a, _ | ⟨b, _ | ⟨c, rest⟩⟩⟩
      · rfl
      · rfl
      · show treeHash node [node a b] = treeHash node ([a] ++ [b])
        rw [treeHash_append (cons_ne_nil _ _) rfl]
        simp only [treeHash_singleton, Option.map₂_some_some]
      · simp only [length_cons] at hn
        omega

/-- **The tree built level by level is the tree built by splitting.** -/
theorem top_eq_treeHash (h : level ≠ []) :
    top node level = treeHash node level := by
  induction h using level_induction node with
  | one a => rw [top_singleton, treeHash_singleton]
  | up level h hlt ih => rw [top_of_lt hlt, ih, treeHash_pairUp]

/-! ## What a root commits to -/

variable (node)

/-- The root of the tree over `level` is `r`, and the pairs joined below it are in a set. -/
structure Commits (pairs : Set (D × D)) (level : List D) (r : D) : Prop where
  joined : ∀ p ∈ treePairs node level, p ∈ pairs
  root : top node level = some r

variable {node} {pairs : Set (D × D)} {r : D}

theorem Commits.up (h : Commits node pairs level r) :
    Commits node pairs (pairUp node level) r ∧ ∀ p ∈ levelPairs level, p ∈ pairs := by
  rcases lt_or_ge 1 level.length with hlt | hle
  · have hjoined := h.joined
    rw [treePairs_of_lt hlt] at hjoined
    refine ⟨⟨fun p hp => hjoined p (mem_append_right _ hp), ?_⟩,
      fun p hp => hjoined p (mem_append_left _ hp)⟩
    rw [← top_of_lt hlt, h.root]
  · -- a level of one node is the last one, and none is above it
    match level, hle with
    | [], _ => exact ⟨h, nofun⟩
    | [_], _ => exact ⟨h, nofun⟩

/-- Up a level in two parts, the first of which has no node without a neighbour. -/
theorem Commits.up_append {right : List D} (h : Commits node pairs (left ++ right) r)
    (heven : left.length % 2 = 0) :
    Commits node pairs (pairUp node left ++ pairUp node right) r ∧
      (∀ p ∈ levelPairs left, p ∈ pairs) ∧ ∀ p ∈ levelPairs right, p ∈ pairs := by
  obtain ⟨hup, hlevel⟩ := h.up
  rw [pairUp_append node heven] at hup
  rw [levelPairs_append heven] at hlevel
  exact ⟨hup, fun p hp => hlevel p (mem_append_left _ hp),
    fun p hp => hlevel p (mem_append_right _ hp)⟩

/-- **The root determines the leaves** of a tree of known size. -/
theorem Commits.unique (hsep : Separates node pairs) {xs ys : List D}
    (hxs : Commits node pairs xs r)
    (hys : Commits node pairs ys r) (hne : xs ≠ []) (hlen : xs.length = ys.length) : xs = ys := by
  induction hne using level_induction node generalizing ys with
  | one a =>
    obtain ⟨b, rfl⟩ := length_eq_one_iff.1 hlen.symm
    have hroot := hxs.root.trans hys.root.symm
    rw [top_singleton, top_singleton] at hroot
    rw [Option.some.inj hroot]
  | up level _ _ ih =>
    obtain ⟨hxs, hlevel⟩ := hxs.up
    obtain ⟨hys, hlevel'⟩ := hys.up
    refine eq_of_pairUp_eq node hsep hlen hlevel hlevel' (ih hxs hys ?_)
    rw [length_pairUp, length_pairUp, hlen]

/-! ## Walks between the root and a node -/

/-- A tree of digests with its inner structure. -/
inductive Shape (D : Type*)
  | leaf (d : D)
  | node (left right : Shape D)

/-- The tree over a level of leaves. -/
def shape (level : List D) : Option (Shape D) := top Shape.node (level.map Shape.leaf)

namespace Shape

variable (node)

/-- The digest at the root. -/
def digest : Shape D → D
  | leaf d => d
  | .node left right => node left.digest right.digest

/-- The pairs joined in a tree. -/
def joined : Shape D → List (D × D)
  | leaf _ => []
  | .node left right => (left.digest node, right.digest node) :: (left.joined ++ right.joined)

/-- The leaves of a tree. -/
def leaves : Shape D → List D
  | leaf d => [d]
  | .node left right => left.leaves ++ right.leaves

/-- The subtree that turns lead to from the root; `true` turns right. -/
def follow : Shape D → List Bool → Option (Shape D)
  | t, [] => some t
  | leaf _, _ :: _ => none
  | .node left right, turn :: turns => (if turn then right else left).follow turns

end Shape

variable (node)

/-- A digest next to its sibling; `true` when it stands on the right. -/
def beside (d : D) (step : Bool × D) : D × D :=
  if step.1 then (step.2, d) else (d, step.2)

/-- From a digest up to a root along siblings. -/
def climb (d : D) (steps : List (Bool × D)) : D :=
  steps.foldl (fun d step => node (beside d step).1 (beside d step).2) d

/-- The pairs joined on the way up. -/
def climbPairs : D → List (Bool × D) → List (D × D)
  | _, [] => []
  | d, step :: steps =>
    beside d step :: climbPairs (node (beside d step).1 (beside d step).2) steps

variable {node}

theorem climb_append (d : D) (steps : List (Bool × D)) (step : Bool × D) :
    climb node d (steps ++ [step]) =
      node (beside (climb node d steps) step).1 (beside (climb node d steps) step).2 := by
  rw [climb, foldl_append]
  rfl

theorem climbPairs_append (d : D) (steps : List (Bool × D)) (step : Bool × D) :
    climbPairs node d (steps ++ [step]) =
      climbPairs node d steps ++ [beside (climb node d steps) step] := by
  induction steps generalizing d with
  | nil => rfl
  | cons s steps ih => exact congrArg _ (ih _)

variable {t : Shape D}

/-- **A climb that ends in the root of a tree began with the digest its turns lead to**, or it began
below a leaf. -/
theorem Shape.follow_of_climb (hsep : Separates node pairs) {d : D} {steps : List (Bool × D)}
    (h : climb node d steps = t.digest node) (ht : ∀ p ∈ t.joined node, p ∈ pairs)
    (hsteps : ∀ p ∈ climbPairs node d steps, p ∈ pairs)
    (hleaf : ∀ x ∈ t.leaves, ∀ p ∈ pairs, node p.1 p.2 ≠ x) :
    ∃ t', t.follow (steps.map Prod.fst).reverse = some t' ∧ t'.digest node = d := by
  -- the last step of the climb is the first turn from the root
  induction steps using reverseRecOn generalizing t with
  | nil => exact ⟨t, rfl, h.symm⟩
  | append_singleton steps step ih =>
    rw [climb_append] at h
    rw [climbPairs_append] at hsteps
    have hlast := hsteps _ (mem_append_right _ (mem_singleton_self _))
    have hrest : ∀ p ∈ climbPairs node d steps, p ∈ pairs :=
      fun p hp => hsteps p (mem_append_left _ hp)
    rw [map_append, reverse_append]
    cases t with
    | leaf x => exact absurd h (hleaf x (mem_singleton_self x) _ hlast)
    | node left right =>
      have hpair : beside (climb node d steps) step = (left.digest node, right.digest node) :=
        hsep hlast (ht _ mem_cons_self) h
      obtain ⟨turn, sibling⟩ := step
      cases turn with
      | true =>
        exact ih (Prod.mk.inj hpair).2
          (fun p hp => ht p (mem_cons_of_mem _ (mem_append_right _ hp))) hrest
          (fun x hx => hleaf x (mem_append_right _ hx))
      | false =>
        exact ih (Prod.mk.inj hpair).1
          (fun p hp => ht p (mem_cons_of_mem _ (mem_append_left _ hp))) hrest
          (fun x hx => hleaf x (mem_append_left _ hx))

/-- What the leaves have, and joining keeps, every tree has. -/
theorem Shape.digest_of_forall (hnode : ∀ a b, P a → P b → P (node a b)) (h : ∀ x ∈ t.leaves, P x) :
    P (t.digest node) := by
  induction t with
  | leaf d => exact h d (mem_singleton_self d)
  | node left right ihl ihr =>
    exact hnode _ _ (ihl fun x hx => h x (mem_append_left _ hx))
      (ihr fun x hx => h x (mem_append_right _ hx))

/-- One turn: the subtree it leads to and the one beside it. -/
theorem Shape.follow_turn (node : D → D → D) (left right : Shape D) (turn : Bool) :
    ∃ child sibling : Shape D,
      (∀ turns, (Shape.node left right).follow (turn :: turns) = child.follow turns) ∧
      beside (child.digest node) (turn, sibling.digest node) =
        (left.digest node, right.digest node) ∧
      (∀ x, x ∈ child.leaves ∨ x ∈ sibling.leaves → x ∈ left.leaves ++ right.leaves) ∧
      ∀ p ∈ child.joined node, p ∈ left.joined node ++ right.joined node := by
  cases turn with
  | true =>
    exact ⟨right, left, fun _ => rfl, rfl, fun x hx => mem_append.2 hx.symm,
      fun p hp => mem_append_right _ hp⟩
  | false =>
    exact ⟨left, right, fun _ => rfl, rfl, fun x hx => mem_append.2 hx,
      fun p hp => mem_append_left _ hp⟩

/-- A subtree has leaves and pairs of its tree. -/
theorem Shape.follow_subset (node : D → D → D) {t' : Shape D} {turns : List Bool}
    (h : t.follow turns = some t') :
    (∀ x ∈ t'.leaves, x ∈ t.leaves) ∧ ∀ p ∈ t'.joined node, p ∈ t.joined node := by
  induction turns generalizing t with
  | nil =>
    cases h
    exact ⟨fun _ hx => hx, fun _ hp => hp⟩
  | cons turn turns ih =>
    cases t with
    | leaf x => cases h
    | node left right =>
      obtain ⟨child, sibling, hfollow, -, hleaves, hjoined⟩ :=
        Shape.follow_turn node left right turn
      rw [hfollow] at h
      obtain ⟨ihleaves, ihjoined⟩ := ih h
      exact ⟨fun x hx => hleaves x (.inl (ihleaves x hx)),
        fun p hp => mem_cons_of_mem _ (hjoined p (ihjoined p hp))⟩

/-- From every subtree there is a climb to the root. -/
theorem Shape.climb_of_follow (hnode : ∀ a b, P a → P b → P (node a b)) {t' : Shape D}
    {turns : List Bool} (h : t.follow turns = some t') (ht : ∀ x ∈ t.leaves, P x) :
    ∃ steps : List (Bool × D), steps.map Prod.fst = turns.reverse ∧
      climb node (t'.digest node) steps = t.digest node ∧
      (∀ p ∈ climbPairs node (t'.digest node) steps, p ∈ t.joined node) ∧ ∀ s ∈ steps, P s.2 := by
  induction turns generalizing t with
  | nil =>
    cases h
    exact ⟨[], rfl, rfl, nofun, nofun⟩
  | cons turn turns ih =>
    cases t with
    | leaf x => cases h
    | node left right =>
      obtain ⟨child, sibling, hfollow, hbeside, hleaves, hjoined⟩ :=
        Shape.follow_turn node left right turn
      rw [hfollow] at h
      obtain ⟨steps, hturns, hclimb, hpairs, hP⟩ := ih h fun x hx => ht x (hleaves x (.inl hx))
      refine ⟨steps ++ [(turn, sibling.digest node)], ?_, ?_, ?_, ?_⟩
      · rw [map_append, hturns, reverse_cons]
        rfl
      · rw [climb_append, hclimb, hbeside]
        rfl
      · intro p hp
        rw [climbPairs_append, hclimb, hbeside] at hp
        rcases mem_append.1 hp with hp | hp
        · exact mem_cons_of_mem _ (hjoined p (hpairs p hp))
        · rw [mem_singleton.1 hp]
          exact mem_cons_self
      · intro s hs
        rcases mem_append.1 hs with hs | hs
        · exact hP s hs
        · rw [mem_singleton.1 hs]
          exact Shape.digest_of_forall hnode fun x hx => ht x (hleaves x (.inr hx))

/-! ## The shape of a tree -/

theorem levelPairs_map (f : D → E) (level : List D) :
    levelPairs (level.map f) = (levelPairs level).map fun p => (f p.1, f p.2) := by
  fun_induction levelPairs level with
  | case1 => rfl
  | case2 => rfl
  | case3 a b rest ih => exact congrArg _ ih

theorem mem_pairUp {x : D} (h : x ∈ pairUp node level) :
    x ∈ level ∨ ∃ p ∈ levelPairs level, p.1 ∈ level ∧ p.2 ∈ level ∧ x = node p.1 p.2 := by
  fun_induction pairUp node level with
  | case1 => cases h
  | case2 a => exact .inl h
  | case3 a b rest ih =>
    rcases mem_cons.1 h with rfl | h
    · exact .inr ⟨(a, b), mem_cons_self, by simp, by simp, rfl⟩
    · rcases ih h with hx | ⟨p, hp, hp₁, hp₂, rfl⟩
      · exact .inl (mem_cons_of_mem _ (mem_cons_of_mem _ hx))
      · exact .inr ⟨p, mem_cons_of_mem _ hp, mem_cons_of_mem _ (mem_cons_of_mem _ hp₁),
          mem_cons_of_mem _ (mem_cons_of_mem _ hp₂), rfl⟩

/-- The pairs joined in the tree over subtrees are joined in one of these or above them. -/
theorem joined_of_top {ts : List (Shape D)} (hne : ts ≠ []) (h : top Shape.node ts = some t)
    {p : D × D} (hp : p ∈ t.joined node) :
    (∃ u ∈ ts, p ∈ u.joined node) ∨ p ∈ treePairs node (ts.map (Shape.digest node)) := by
  induction hne using level_induction Shape.node with
  | one a =>
    rw [top_singleton] at h
    cases h
    exact .inl ⟨_, mem_singleton_self _, hp⟩
  | up ts _ hlt ih =>
    rw [top_of_lt hlt] at h
    rw [treePairs_of_lt (by rwa [length_map]), levelPairs_map]
    rcases ih h with ⟨u, hu, hpu⟩ | hp
    · rcases mem_pairUp hu with hu | ⟨q, hq, hq₁, hq₂, rfl⟩
      · exact .inl ⟨u, hu, hpu⟩
      · -- the pair is the one of the new node, or belongs to one of its halves
        rcases mem_cons.1 hpu with rfl | hpu
        · exact .inr (mem_append_left _ (mem_map.2 ⟨q, hq, rfl⟩))
        · rcases mem_append.1 hpu with hpu | hpu
          · exact .inl ⟨q.1, hq₁, hpu⟩
          · exact .inl ⟨q.2, hq₂, hpu⟩
    · have hup : pairUp node (ts.map (Shape.digest node)) =
          (pairUp Shape.node ts).map (Shape.digest node) := pairUp_map (fun _ _ => rfl) ts
      rw [← hup] at hp
      exact .inr (mem_append_right _ hp)

/-- **The tree over a level as a binary tree**: its digest is the root, its leaves are the level's,
and its pairs are the ones joined in the levels. -/
theorem exists_shape (node : D → D → D) (hne : level ≠ []) :
    ∃ t, shape level = some t ∧ top node level = some (t.digest node) ∧
      (∀ x ∈ t.leaves, x ∈ level) ∧ ∀ p ∈ t.joined node, p ∈ treePairs node level := by
  have hne' : level.map Shape.leaf ≠ [] := by simpa using hne
  obtain ⟨t, ht⟩ := exists_top Shape.node hne'
  have hdigest : (level.map Shape.leaf).map (Shape.digest node) = level := by
    rw [map_map]
    exact map_id level
  refine ⟨t, ht, ?_, ?_, fun p hp => ?_⟩
  · have hmap : top node ((level.map Shape.leaf).map (Shape.digest node)) =
        (top Shape.node (level.map Shape.leaf)).map (Shape.digest node) :=
      top_map (fun _ _ => rfl) hne'
    rw [hdigest, ht] at hmap
    exact hmap
  · refine top_of_forall (P := fun t => ∀ x ∈ t.leaves, x ∈ level) ?_ hne' ?_ ht
    · intro a b ha hb x hx
      rcases mem_append.1 hx with hx | hx
      · exact ha x hx
      · exact hb x hx
    · intro u hu x hx
      obtain ⟨d, hd, rfl⟩ := mem_map.1 hu
      rwa [mem_singleton.1 hx]
  · rcases joined_of_top hne' ht hp with ⟨u, hu, hpu⟩ | hp
    · obtain ⟨d, -, rfl⟩ := mem_map.1 hu
      cases hpu
    · rwa [hdigest] at hp

end MxKeys.Lib.HashTree
