/-
# MxKeys.Lib.Agree — lists that agree up to a position, and merging one into another.

Replicated logs are compared by content: `Agree l l' i` says that `l` and `l'` have the same entry
(or none) at each of the first `i` positions.  `merge l h i` is what a replica's log becomes when it
accepts the first `i` entries of `h`: unchanged when it holds them already, cut back to exactly them
otherwise.  `Takes` is what any way of taking over from `h` has in common, also one that is given up
half way.
-/
import Mathlib.Data.List.Basic
import Mathlib.Tactic.Common

namespace MxKeys.Lib

open List

variable {E : Type*}

/-- The first `i` positions hold the same entries. -/
def Agree (l l' : List E) (i : Nat) : Prop := ∀ k, k < i → l[k]? = l'[k]?

theorem Agree.rfl' (l : List E) (i : Nat) : Agree l l i := fun _ _ => rfl

theorem Agree.zero (l l' : List E) : Agree l l' 0 := fun _ hk => absurd hk (Nat.not_lt_zero _)

variable {l l' : List E} {i k : Nat} {e : E}

theorem Agree.symm (h : Agree l l' i) : Agree l' l i :=
  fun k hk => (h k hk).symm

theorem Agree.trans {l'' : List E} (h : Agree l l' i) (h' : Agree l' l'' i) :
    Agree l l'' i :=
  fun k hk => (h k hk).trans (h' k hk)

theorem Agree.mono {j : Nat} (h : Agree l l' i) (hj : j ≤ i) : Agree l l' j :=
  fun k hk => h k (Nat.lt_of_lt_of_le hk hj)

theorem lt_length_of_getElem? (h : l[k]? = some e) :
    k < l.length :=
  (List.getElem?_eq_some_iff.1 h).1

theorem exists_getElem? (h : k < l.length) : ∃ e, l[k]? = some e :=
  ⟨l[k], getElem?_eq_getElem h⟩

/-- Agreement up to a position that one list reaches is reached by the other. -/
theorem Agree.le_length (h : Agree l l' i) (hi : i ≤ l'.length) :
    i ≤ l.length := by
  rcases Nat.eq_zero_or_pos i with rfl | hpos
  · exact Nat.zero_le _
  · obtain ⟨e, he⟩ := exists_getElem? (l := l') (k := i - 1) (by omega)
    have := lt_length_of_getElem? ((h (i - 1) (by omega)).trans he)
    omega

/-- Appending to a list does not disturb the positions it already has. -/
theorem agree_append (l l' : List E) (hi : i ≤ l.length) : Agree (l ++ l') l i :=
  fun _ hk => getElem?_append_left (Nat.lt_of_lt_of_le hk hi)

/-- A list that extends another agrees with it on all the positions of the shorter one. -/
theorem agree_of_isPrefix (h : l <+: l') (hi : i ≤ l.length) :
    Agree l l' i := by
  obtain ⟨t, rfl⟩ := h
  exact (agree_append l t hi).symm

theorem getElem?_of_isPrefix (h : l <+: l') (he : l[k]? = some e) : l'[k]? = some e := by
  rw [← agree_of_isPrefix h (Nat.le_refl _) k (lt_length_of_getElem? he)]
  exact he

theorem getElem?_of_take (he : (l.take i)[k]? = some e) : l[k]? = some e := by
  have hstart := take_prefix i l
  exact getElem?_of_isPrefix hstart he

theorem agree_take (x : Nat) (hi : i ≤ x) : Agree (l.take x) l i := by
  intro k hk
  rw [getElem?_take_of_lt (Nat.lt_of_lt_of_le hk hi)]

theorem Agree.take_eq (h : Agree l l' i) : l.take i = l'.take i := by
  apply ext_getElem?
  intro k
  rcases Nat.lt_or_ge k i with hk | hk
  · rw [getElem?_take_of_lt hk, getElem?_take_of_lt hk, h k hk]
  · rw [getElem?_take_eq_none hk, getElem?_take_eq_none hk]

/-! ## Splicing a prefix under a tail -/

/-- The first `x` entries of `h` under what `l` holds from position `x` on. -/
def splice (h l : List E) (x : Nat) : List E := h.take x ++ l.drop x

variable {h : List E} {x : Nat}

theorem splice_getElem?_lt (hx : x ≤ h.length) (hk : k < x) :
    (splice h l x)[k]? = h[k]? := by
  have hlen : (h.take x).length = x := length_take_of_le hx
  rw [splice, getElem?_append_left (by omega), getElem?_take_of_lt hk]

theorem splice_getElem?_ge (hx : x ≤ h.length) (hk : x ≤ k) :
    (splice h l x)[k]? = l[k]? := by
  have hlen : (h.take x).length = x := length_take_of_le hx
  rw [splice, getElem?_append_right (by omega), getElem?_drop, hlen]
  congr 1
  omega

theorem splice_agree (hx : x ≤ h.length) : Agree (splice h l x) h x :=
  fun _ hk => splice_getElem?_lt hx hk

/-- Splicing in what is there already changes nothing. -/
theorem splice_eq_self (hx : x ≤ h.length) (ha : Agree l h x) :
    splice h l x = l := by
  apply ext_getElem?
  intro k
  rcases Nat.lt_or_ge k x with hk | hk
  · rw [splice_getElem?_lt hx hk, ha k hk]
  · exact splice_getElem?_ge hx hk

/-- A later, longer splice hides an earlier one. -/
theorem splice_splice {h' : List E} {y : Nat} (hx : x ≤ h.length) (hy : y ≤ h'.length)
    (hxy : x ≤ y) :
    splice h' (splice h l x) y = splice h' l y := by
  apply ext_getElem?
  intro k
  rcases Nat.lt_or_ge k y with hk | hk
  · rw [splice_getElem?_lt hy hk, splice_getElem?_lt hy hk]
  · rw [splice_getElem?_ge hy hk, splice_getElem?_ge hy hk,
      splice_getElem?_ge hx (Nat.le_trans hxy hk)]

theorem splice_zero (h l : List E) : splice h l 0 = l := by simp [splice]

/-! ## Merging an accepted prefix -/

open Classical in
/-- `l` after accepting the first `i` entries of `h`. -/
noncomputable def merge (l h : List E) (i : Nat) : List E := if Agree l h i then l else h.take i

theorem merge_agree : Agree (merge l h i) h i := by
  unfold merge
  split_ifs with ha
  · exact ha
  · exact agree_take i (Nat.le_refl _)

/-- What `l` shares with `h` survives the merge, however short the accepted prefix is. -/
theorem merge_keeps {c : Nat} (ha : Agree l h c) : Agree (merge l h i) h c := by
  unfold merge
  split_ifs with hi
  · exact ha
  · -- the lists differ below `i`, hence not below `c`
    have hci : c ≤ i := by
      by_contra hlt
      exact hi (ha.mono (by omega))
    exact agree_take i hci

/-- An entry of the merged log is an entry of the old log with its accepted prefix in place, or an
entry of the accepted prefix. -/
theorem merge_cases (i : Nat) :
    (merge l h i = l ∧ Agree l h i) ∨ merge l h i = h.take i := by
  unfold merge
  split_ifs with ha
  · exact .inl ⟨rfl, ha⟩
  · exact .inr rfl

theorem merge_eq_self (ha : Agree l h i) : merge l h i = l := if_pos ha

/-- A merged log that goes on past the accepted prefix is the old log. -/
theorem agree_of_lt_merge (hlt : i < (merge l h i).length) :
    Agree l h i := by
  rcases merge_cases (l := l) (h := h) i with ⟨_, ha⟩ | heq
  · exact ha
  · rw [heq, length_take] at hlt
    omega

/-- Accepting one entry more, with a different one or none in its place: the log ends there. -/
theorem merge_succ_of_ne (he : h[i]? = some e) (hne : (merge l h i)[i]? ≠ some e) :
    merge l h (i + 1) = (merge l h i).take i ++ [e] := by
  have hnot : ¬Agree l h (i + 1) := by
    intro ha
    rw [merge_eq_self (ha.mono (Nat.le_succ i)), ha i (Nat.lt_succ_self i)] at hne
    exact hne he
  rw [merge, if_neg hnot, take_add_one, he, (merge_agree (l := l) (h := h) (i := i)).take_eq]
  rfl

/-! ## Taking over -/

/-- `l'` comes from `l` by taking over from `h`: it has the first `i` entries of `h`, it keeps what
`l` shares with `h`, and it is `l` itself or a part of `h`. -/
structure Takes (l h l' : List E) (i : Nat) : Prop where
  agree : Agree l' h i
  keeps : ∀ c, Agree l h c → Agree l' h c
  shape : (l' = l ∧ Agree l h i) ∨ ∃ k, l' = h.take k

theorem takes_merge (l h : List E) (i : Nat) : Takes l h (merge l h i) i :=
  ⟨merge_agree, fun _ => merge_keeps, (merge_cases i).imp_right fun heq => ⟨i, heq⟩⟩

/-- The lists part at position `i`, and what comes from there on is dropped. -/
theorem takes_cut (hne : ¬Agree l h (i + 1)) : Takes l h (h.take i) i := by
  refine ⟨agree_take i (Nat.le_refl _), fun c hc => agree_take i ?_, Or.inr ⟨i, rfl⟩⟩
  by_contra hlt
  exact hne (hc.mono (by omega))

end MxKeys.Lib
