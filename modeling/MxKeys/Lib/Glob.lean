/-
# MxKeys.Lib.Glob — patterns with stars.

A pattern stands for the strings that come of it when each star is replaced by some string
(`Matches`).  A pattern that is cut at its stars is a first part, parts that have to occur in the
rest one after another, and a last part (`matches_iff_splitOn`); and to look for each part where it
occurs first misses nothing (`inOrder_cons`).

Strings are lists over any alphabet, bytes and characters alike.
-/
import Mathlib.Data.List.Basic

namespace MxKeys.Lib.Glob

open List

variable {α : Type}

/-- `Matches star pattern s`: replacing each star in `pattern` by some string gives `s`. -/
inductive Matches (star : α) : List α → List α → Prop
  | nil : Matches star [] []
  | char {c : α} {pattern s : List α} (hc : c ≠ star) (h : Matches star pattern s) :
      Matches star (c :: pattern) (c :: s)
  | star (replacement : List α) {pattern s : List α} (h : Matches star pattern s) :
      Matches star (star :: pattern) (replacement ++ s)

/-! ## Parts -/

/-- The parts of a pattern between its stars, with anything for each star. -/
def Parts : List (List α) → List α → Prop
  | [], _ => False
  | [part], s => s = part
  | part :: next :: parts, s => ∃ gap rest, s = part ++ gap ++ rest ∧ Parts (next :: parts) rest

/-- The parts occur one after another, and do not overlap. -/
def InOrder : List (List α) → List α → Prop
  | [], _ => True
  | part :: parts, s => ∃ before after, s = before ++ part ++ after ∧ InOrder parts after

variable {parts : List (List α)} {s : List α}

theorem parts_nil_cons (hne : parts ≠ []) :
    Parts ([] :: parts) s ↔ ∃ gap rest, s = gap ++ rest ∧ Parts parts rest := by
  obtain ⟨next, parts, rfl⟩ := exists_cons_of_ne_nil hne
  rfl

theorem parts_modifyHead {c : α} (hne : parts ≠ []) :
    Parts (parts.modifyHead (c :: ·)) s ↔ ∃ rest, s = c :: rest ∧ Parts parts rest := by
  obtain ⟨part, parts, rfl⟩ := exists_cons_of_ne_nil hne
  cases parts with
  | nil =>
    show s = c :: part ↔ ∃ rest, s = c :: rest ∧ rest = part
    rw [exists_eq_right]
  | cons next parts =>
    constructor
    · rintro ⟨gap, rest, rfl, h⟩
      exact ⟨part ++ gap ++ rest, rfl, gap, rest, rfl, h⟩
    · rintro ⟨_, rfl, gap, rest, rfl, h⟩
      exact ⟨gap, rest, rfl, h⟩

/-- A pattern says the same as its parts. -/
theorem matches_iff_splitOn [DecidableEq α] {star : α} (pattern : List α) :
    ∀ {s : List α}, Matches star pattern s ↔ Parts (pattern.splitOn star) s := by
  induction pattern with
  | nil =>
    intro s
    rw [splitOn_nil]
    constructor
    · rintro ⟨⟩
      rfl
    · rintro rfl
      exact .nil
  | cons c pattern ih =>
    intro s
    have hne := splitOn_ne_nil star pattern
    rw [List.splitOn, splitOnP_cons_eq_if_modifyHead]
    by_cases hc : c = star
    · subst hc
      rw [if_pos (beq_self_eq_true c), ← List.splitOn, parts_nil_cons hne]
      constructor
      · rintro (_ | ⟨hc, -⟩ | ⟨replacement, h⟩)
        · exact absurd rfl hc
        · exact ⟨replacement, _, rfl, ih.1 h⟩
      · rintro ⟨gap, rest, rfl, h⟩
        exact .star gap (ih.2 h)
    · rw [if_neg (by simpa using hc), ← List.splitOn, parts_modifyHead hne]
      constructor
      · rintro (_ | ⟨-, h⟩ | ⟨_, -⟩)
        · exact ⟨_, rfl, ih.1 h⟩
        · exact absurd rfl hc
      · rintro ⟨rest, rfl, h⟩
        exact .char hc (ih.2 h)

/-- The first part, the parts in between, and the last part. -/
theorem parts_append_singleton {last : List α} (middle : List (List α)) :
    ∀ {first s : List α}, Parts (first :: (middle ++ [last])) s ↔
      ∃ inner, s = first ++ inner ++ last ∧ InOrder middle inner := by
  induction middle with
  | nil =>
    intro first s
    constructor
    · rintro ⟨gap, rest, rfl, rfl⟩
      exact ⟨gap, rfl, trivial⟩
    · rintro ⟨gap, rfl, -⟩
      exact ⟨gap, last, rfl, rfl⟩
  | cons part middle ih =>
    intro first s
    constructor
    · rintro ⟨gap, rest, rfl, h⟩
      obtain ⟨inner, rfl, horder⟩ := ih.1 h
      exact ⟨gap ++ part ++ inner, by simp, gap, inner, rfl, horder⟩
    · rintro ⟨_, rfl, gap, inner, rfl, horder⟩
      exact ⟨gap, part ++ inner ++ last, by simp, ih.2 ⟨inner, rfl, horder⟩⟩

/-- A string that is long enough for what it starts and what it ends with. -/
theorem eq_ends {first last : List α} (hfirst : first <+: s) (hlast : last <:+ s)
    (hle : first.length + last.length ≤ s.length) :
    s = first ++ (s.drop first.length).take (s.length - first.length - last.length) ++ last := by
  obtain ⟨rest, rfl⟩ := hfirst
  have hsuffix : last <:+ rest :=
    suffix_of_suffix_length_le hlast (suffix_append first rest) (by simpa using hle)
  obtain ⟨inner, rfl⟩ := hsuffix
  simp

theorem InOrder.append_left (pre : List α) (h : InOrder parts s) : InOrder parts (pre ++ s) := by
  cases parts with
  | nil => trivial
  | cons part parts =>
    obtain ⟨before, after, rfl, hafter⟩ := h
    exact ⟨pre ++ before, after, by simp, hafter⟩

/-! ## The first occurrence -/

variable [DecidableEq α]

/-- Go's `strings.Index`: where a string occurs first. -/
def index (part : List α) : List α → Option Nat
  | [] => if part = [] then some 0 else none
  | c :: s => if part.isPrefixOf (c :: s) then some 0 else (index part s).map (· + 1)

variable {part : List α}

theorem index_of_isPrefixOf (h : part.isPrefixOf s) : index part s = some 0 := by
  cases s with
  | nil =>
    have hnil := isPrefixOf_iff_prefix.1 h
    rw [index, if_pos (prefix_nil.1 hnil)]
  | cons c s => rw [index, if_pos h]

/-- The part is where `index` says. -/
theorem index_some {i : Nat} (h : index part s = some i) :
    s = s.take i ++ part ++ s.drop (i + part.length) := by
  induction s generalizing i with
  | nil =>
    rw [index] at h
    split_ifs at h with hnil
    simp [hnil]
  | cons c s ih =>
    rw [index] at h
    split_ifs at h with hpart
    · cases h
      obtain ⟨after, hafter⟩ := isPrefixOf_iff_prefix.1 hpart
      rw [← hafter]
      simp
    · obtain ⟨j, hj, rfl⟩ := Option.map_eq_some_iff.1 h
      rw [take_succ_cons, Nat.add_right_comm, drop_succ_cons]
      exact congrArg (c :: ·) (ih hj)

/-- No occurrence of the part ends before the one that `index` finds. -/
theorem exists_index (part before after : List α) :
    ∃ i pre, index part (before ++ part ++ after) = some i ∧
      (before ++ part ++ after).drop (i + part.length) = pre ++ after := by
  induction before with
  | nil =>
    have h : part.isPrefixOf (part ++ after) :=
      isPrefixOf_iff_prefix.2 (prefix_append _ _)
    exact ⟨0, [], index_of_isPrefixOf h, by simp⟩
  | cons c before ih =>
    by_cases h : part.isPrefixOf (c :: before ++ part ++ after)
    · refine ⟨0, (c :: before ++ part).drop part.length, index_of_isPrefixOf h, ?_⟩
      rw [Nat.zero_add]
      exact drop_append_of_le_length (length_append ▸ Nat.le_add_left _ _)
    · obtain ⟨i, pre, hi, hdrop⟩ := ih
      refine ⟨i + 1, pre, ?_, ?_⟩
      · show (if part.isPrefixOf (c :: before ++ part ++ after) then _ else _) = _
        rw [if_neg h]
        exact congrArg (Option.map (· + 1)) hi
      · rw [Nat.add_right_comm, cons_append, cons_append, drop_succ_cons, hdrop]

/-- **To look for each part where it occurs first misses nothing.** -/
theorem inOrder_cons :
    InOrder (part :: parts) s ↔
      ∃ i, index part s = some i ∧ InOrder parts (s.drop (i + part.length)) := by
  constructor
  · rintro ⟨before, after, rfl, h⟩
    obtain ⟨i, pre, hi, hdrop⟩ := exists_index part before after
    exact ⟨i, hi, hdrop ▸ h.append_left pre⟩
  · rintro ⟨i, hi, h⟩
    exact ⟨s.take i, _, index_some hi, h⟩

end MxKeys.Lib.Glob
