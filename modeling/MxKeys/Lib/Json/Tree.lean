/-
# MxKeys.Lib.Json.Tree — JSON documents as trees.

A document is kept as it was written: an object is the list of its members in order, duplicate names
included, and a number is its literal. What a program makes of a document is a fold over the tree
(`fold`), one function for each constructor applied to the results for the parts, and every property
of documents is proved by one induction (`Json.induct`).

`generic` is the value Go's `encoding/json` builds for an `interface{}` with `UseNumber`: objects
are maps, so of several members with one name the last is kept, and the keys have no order of their
own (here they are listed in increasing order).
-/
import MxKeys.Lib.Assoc
import MxKeys.Lib.Utf8
import Mathlib.Data.List.Lex
import Mathlib.Data.Char

namespace MxKeys.Lib

open List Assoc

/-- A JSON document. -/
inductive Json where
  | null
  | bool (b : Bool)
  | num (literal : Text)
  | str (s : Text)
  | arr (items : List Json)
  | obj (members : List (Text × Json))

namespace Json

/-! ## Folds -/

/-- What a fold does at each constructor, given its results for the parts. -/
structure Algebra (α : Type) where
  null : α
  bool : Bool → α
  num : Text → α
  str : Text → α
  arr : List α → α
  obj : List (Text × α) → α

section Fold

variable {α : Type} (A : Algebra α)

mutual

/-- The value of a document under an algebra. -/
def fold : Json → α
  | .null => A.null
  | .bool b => A.bool b
  | .num literal => A.num literal
  | .str s => A.str s
  | .arr items => A.arr (foldItems items)
  | .obj members => A.obj (foldMembers members)

/-- The values of the items of an array. -/
def foldItems : List Json → List α
  | [] => []
  | v :: items => fold v :: foldItems items

/-- The values of the members of an object, under their names. -/
def foldMembers : List (Text × Json) → List (Text × α)
  | [] => []
  | (name, v) :: members => (name, fold v) :: foldMembers members

end

theorem foldItems_eq (items : List Json) : foldItems A items = items.map (fold A) := by
  induction items with
  | nil => rfl
  | cons v items ih => exact congrArg (fold A v :: ·) ih

theorem foldMembers_eq (members : List (Text × Json)) :
    foldMembers A members = mapValues (fold A) members := by
  induction members with
  | nil => rfl
  | cons m members ih => exact congrArg ((m.1, fold A m.2) :: ·) ih

@[simp] theorem fold_null : fold A .null = A.null := rfl

@[simp] theorem fold_bool (b : Bool) : fold A (.bool b) = A.bool b := rfl

@[simp] theorem fold_num (literal : Text) : fold A (.num literal) = A.num literal := rfl

@[simp] theorem fold_str (s : Text) : fold A (.str s) = A.str s := rfl

@[simp] theorem fold_arr (items : List Json) : fold A (.arr items) = A.arr (items.map (fold A)) :=
  congrArg A.arr (foldItems_eq A items)

@[simp] theorem fold_obj (members : List (Text × Json)) :
    fold A (.obj members) = A.obj (mapValues (fold A) members) :=
  congrArg A.obj (foldMembers_eq A members)

end Fold

/-! ## Induction -/

/-- **Induction over documents.** A property holds of every document when it passes from the items
to an array and from the member values to an object. -/
@[induction_eliminator]
theorem induct {P : Json → Prop} (null : P .null) (bool : ∀ b, P (.bool b))
    (num : ∀ literal, P (.num literal)) (str : ∀ s, P (.str s))
    (arr : ∀ items, (∀ v ∈ items, P v) → P (.arr items))
    (obj : ∀ members, (∀ m ∈ members, P m.2) → P (.obj members)) (j : Json) : P j := by
  refine @Json.rec P (fun items => ∀ v ∈ items, P v) (fun members => ∀ m ∈ members, P m.2)
    (fun m => P m.2) null bool num str arr obj ?_ ?_ ?_ ?_ ?_ j
  · nofun
  · intro v items hv hitems w hw
    rcases mem_cons.1 hw with rfl | hw
    · exact hv
    · exact hitems w hw
  · nofun
  · intro m members hm hmembers m' hm'
    rcases mem_cons.1 hm' with rfl | hm'
    · exact hm
    · exact hmembers m' hm'
  · exact fun _ _ hv => hv

/-! ## Size of the nesting -/

/-- How deep arrays and objects are nested. -/
def depth : Json → Nat :=
  fold {
    null := 0
    bool := fun _ => 0
    num := fun _ => 0
    str := fun _ => 0
    arr := fun items => items.foldr max 0 + 1
    obj := fun members => (members.map Prod.snd).foldr max 0 + 1 }

variable {l : List Nat} {d : Nat} {items : List Json} {members : List (Text × Json)} {α : Type}

theorem le_foldr_max (h : d ∈ l) : d ≤ l.foldr max 0 := by
  induction l with
  | nil => exact absurd h not_mem_nil
  | cons a l ih =>
    rw [foldr_cons]
    rcases mem_cons.1 h with rfl | h
    · exact le_max_left _ _
    · exact (ih h).trans (le_max_right _ _)

theorem foldr_max_le (h : ∀ a ∈ l, a ≤ d) : l.foldr max 0 ≤ d := by
  induction l with
  | nil => exact Nat.zero_le d
  | cons a l ih =>
    rw [foldr_cons]
    exact Nat.max_le.2 ⟨h a mem_cons_self, ih fun b hb => h b (mem_cons_of_mem _ hb)⟩

theorem depth_arr_pos (items : List Json) : 0 < (Json.arr items).depth := by
  unfold depth
  rw [fold_arr]
  exact Nat.succ_pos _

theorem depth_obj_pos (members : List (Text × Json)) : 0 < (Json.obj members).depth := by
  unfold depth
  rw [fold_obj]
  exact Nat.succ_pos _

/-- An item of an array is nested less deep than the array. -/
theorem depth_lt_of_mem_items {v : Json} (h : v ∈ items) :
    v.depth < (Json.arr items).depth := by
  unfold depth
  rw [fold_arr]
  exact Nat.lt_succ_of_le (le_foldr_max (mem_map_of_mem h))

/-- A member of an object is nested less deep than the object. -/
theorem depth_lt_of_mem {m : Text × Json} (h : m ∈ members) :
    m.2.depth < (Json.obj members).depth := by
  unfold depth
  rw [fold_obj]
  refine Nat.lt_succ_of_le (le_foldr_max ?_)
  rw [mapValues, map_map]
  exact mem_map.2 ⟨m, h, rfl⟩

theorem depth_arr_le (h : ∀ v ∈ items, v.depth < d) (hd : 0 < d) :
    (Json.arr items).depth ≤ d := by
  unfold depth
  rw [fold_arr]
  refine Nat.succ_le_of_lt (lt_of_le_of_lt (foldr_max_le (d := d - 1) ?_) (by omega))
  intro a ha
  obtain ⟨v, hv, rfl⟩ := mem_map.1 ha
  exact Nat.le_sub_one_of_lt (h v hv)

theorem depth_obj_le (h : ∀ m ∈ members, m.2.depth < d) (hd : 0 < d) :
    (Json.obj members).depth ≤ d := by
  unfold depth
  rw [fold_obj]
  refine Nat.succ_le_of_lt (lt_of_le_of_lt (foldr_max_le (d := d - 1) ?_) (by omega))
  rw [mapValues, map_map]
  intro a ha
  obtain ⟨m, hm, rfl⟩ := mem_map.1 ha
  exact Nat.le_sub_one_of_lt (h m hm)

/-! ## Generic values -/

/-- The generic value of a document: in each object the last member of a name stands for it. -/
def generic : Json → Json :=
  fold {
    null := .null
    bool := .bool
    num := .num
    str := .str
    arr := .arr
    obj := fun members => .obj (ofEntries members) }

@[simp] theorem generic_null : generic .null = .null := fold_null _

@[simp] theorem generic_bool (b : Bool) : generic (.bool b) = .bool b := fold_bool _ b

@[simp] theorem generic_num (literal : Text) : generic (.num literal) = .num literal :=
  fold_num _ literal

@[simp] theorem generic_str (s : Text) : generic (.str s) = .str s := fold_str _ s

@[simp] theorem generic_arr (items : List Json) :
    generic (.arr items) = .arr (items.map generic) := fold_arr _ items

@[simp] theorem generic_obj (members : List (Text × Json)) :
    generic (.obj members) = .obj (ofEntries (mapValues generic members)) :=
  fold_obj _ members

theorem depth_generic_le (j : Json) : (generic j).depth ≤ j.depth := by
  induction j with
  | null | bool _ | num _ | str _ => simp
  | arr items ih =>
    rw [generic_arr]
    refine depth_arr_le (fun v hv => ?_) (depth_arr_pos items)
    obtain ⟨w, hw, rfl⟩ := mem_map.1 hv
    exact lt_of_le_of_lt (ih w hw) (depth_lt_of_mem_items hw)
  | obj members ih =>
    rw [generic_obj]
    refine depth_obj_le (fun m hm => ?_) (depth_obj_pos members)
    obtain ⟨m', hm', rfl⟩ := mem_map.1 (mem_ofEntries hm)
    exact lt_of_le_of_lt (ih m' hm') (depth_lt_of_mem hm')

/-- Every number literal of the document satisfies `p`. -/
def Numbers (p : Text → Prop) : Json → Prop :=
  fold {
    null := True
    bool := fun _ => True
    num := p
    str := fun _ => True
    arr := fun items => ∀ q ∈ items, q
    obj := fun members => ∀ m ∈ members, m.2 }

/-- Every object of the document lists its members by increasing names, each name once. -/
def Normal : Json → Prop :=
  fold {
    null := True
    bool := fun _ => True
    num := fun _ => True
    str := fun _ => True
    arr := fun items => ∀ q ∈ items, q
    obj := fun members => Sorted members ∧ ∀ m ∈ members, m.2 }

section Numbers

variable {p : Text → Prop}

@[simp] theorem numbers_null : Numbers p .null := by simp [Numbers]

@[simp] theorem numbers_bool (b : Bool) : Numbers p (.bool b) := by simp [Numbers]

@[simp] theorem numbers_num (literal : Text) : Numbers p (.num literal) ↔ p literal := by
  simp [Numbers]

@[simp] theorem numbers_str (s : Text) : Numbers p (.str s) := by simp [Numbers]

@[simp] theorem numbers_arr (items : List Json) :
    Numbers p (.arr items) ↔ ∀ v ∈ items, Numbers p v := by
  rw [Numbers, fold_arr]
  exact forall_mem_map

@[simp] theorem numbers_obj (members : List (Text × Json)) :
    Numbers p (.obj members) ↔ ∀ m ∈ members, Numbers p m.2 := by
  rw [Numbers, fold_obj]
  exact forall_mem_map

/-- The generic value has no number the document does not have. -/
theorem numbers_generic {j : Json} : Numbers p j → Numbers p (generic j) := by
  induction j with
  | null | bool _ | num _ | str _ => simp
  | arr items ih => simpa using fun h v hv => ih v hv (h v hv)
  | obj members ih =>
    intro h
    rw [numbers_obj] at h
    rw [generic_obj, numbers_obj]
    intro m hm
    obtain ⟨m', hm', rfl⟩ := mem_map.1 (mem_ofEntries hm)
    exact ih m' hm' (h m' hm')

end Numbers

@[simp] theorem normal_num (literal : Text) : Normal (.num literal) := by simp [Normal]

@[simp] theorem normal_str (s : Text) : Normal (.str s) := by simp [Normal]

@[simp] theorem normal_arr (items : List Json) : Normal (.arr items) ↔ ∀ v ∈ items, Normal v := by
  rw [Normal, fold_arr]
  exact forall_mem_map

@[simp] theorem normal_obj (members : List (Text × Json)) :
    Normal (.obj members) ↔ Sorted members ∧ ∀ m ∈ members, Normal m.2 := by
  rw [Normal, fold_obj]
  exact and_congr sorted_mapValues forall_mem_map

/-- The numbers of an object that is written entry by entry. -/
theorem numbers_mapValues {p : Text → Prop} (encode : α → Json) (m : List (Text × α)) :
    Numbers p (.obj (mapValues encode m)) ↔ ∀ e ∈ m, Numbers p (encode e.2) := by
  rw [numbers_obj]
  exact forall_mem_map

theorem normal_mapValues {encode : α → Json} {m : List (Text × α)} (hm : Sorted m)
    (h : ∀ a, Normal (encode a)) : Normal (.obj (mapValues encode m)) :=
  (normal_obj _).2 ⟨sorted_mapValues.2 hm, forall_mem_map.2 fun e _ => h e.2⟩

theorem normal_generic (j : Json) : Normal (generic j) := by
  induction j with
  | null | bool _ | num _ | str _ => simp [Normal]
  | arr items ih => simpa using ih
  | obj members ih =>
    rw [generic_obj, normal_obj]
    refine ⟨sorted_ofEntries _, fun m hm => ?_⟩
    obtain ⟨m', hm', rfl⟩ := mem_map.1 (mem_ofEntries hm)
    exact ih m' hm'

/-- **A generic value is its own generic value**: a document with ordered objects is read back as
it stands. -/
theorem generic_of_normal {j : Json} : Normal j → generic j = j := by
  induction j with
  | null | bool _ | num _ | str _ => simp
  | arr items ih =>
    intro h
    rw [normal_arr] at h
    have hitems : items.map generic = items.map id :=
      map_congr_left fun v hv => ih v hv (h v hv)
    rw [generic_arr, hitems, map_id]
  | obj members ih =>
    intro h
    rw [normal_obj] at h
    have hvalues : mapValues generic members = members :=
      mapValues_of_fixed fun m hm => ih m hm (h.2 m hm)
    rw [generic_obj, hvalues, ofEntries_of_sorted h.1]

end Json

end MxKeys.Lib
