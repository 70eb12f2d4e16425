/-
# MxKeys.Canonical.Normal — canonical JSON as the text of a normal form.

`normalize` is what canonical JSON keeps of a value: objects by increasing name, numbers as integers
in decimal.  The canonical form is the text of it (`writeValue_eq`), so two values have the same
canonical form exactly when they have the same normal form, and what is read back from canonical
bytes is the normal form (`exists_of_marshal`).  Normal forms are their own (`NormalForm.fixed`):
canonical bytes, read and written again, do not change.
-/
import MxKeys.Canonical.Json
import MxKeys.Lib.Json.Fields

namespace MxKeys.Canonical

open MxKeys.Lib
open List Option Assoc Json

/-! ## The normal form -/

/-- One member, its value already normal. -/
def normalMember (m : Text × Option Json) : Option (Text × Json) :=
  m.2.map fun v => (m.1, v)

/-- What canonical JSON keeps of a value, if it can be written. -/
def normalize : Json → Option Json :=
  fold {
    null := some .null
    bool := fun b => some (.bool b)
    num := fun literal => (writeJSONNumber literal).map .num
    str := fun s => some (.str s)
    arr := fun items => (items.mapM id).map .arr
    obj := fun members => ((ofEntries members).mapM normalMember).map .obj }

@[simp] theorem normalize_null : normalize .null = some .null := fold_null _

@[simp] theorem normalize_bool (b : Bool) : normalize (.bool b) = some (.bool b) :=
  fold_bool _ b

@[simp] theorem normalize_num (literal : Text) :
    normalize (.num literal) = (writeJSONNumber literal).map .num := fold_num _ literal

@[simp] theorem normalize_str (s : Text) : normalize (.str s) = some (.str s) :=
  fold_str _ s

theorem normalize_arr (items : List Json) :
    normalize (.arr items) = (items.mapM normalize).map .arr := by
  have hfold : normalize (.arr items) = ((items.map normalize).mapM id).map .arr :=
    fold_arr _ items
  rw [hfold, List.mapM_map]
  rfl

theorem normalize_obj (members : List (Text × Json)) :
    normalize (.obj members) =
      ((ofEntries members).mapM fun m => (normalize m.2).map fun v => (m.1, v)).map .obj := by
  have hfold : normalize (.obj members) =
      ((ofEntries (mapValues normalize members)).mapM normalMember).map .obj :=
    fold_obj _ members
  rw [hfold, ← mapValues_ofEntries, mapValues, List.mapM_map]
  rfl

/-! ## The canonical form is its text -/

variable {α β : Type} {n : Int} {f : α → Option β} {l : List α} {bs : List β}

theorem mapM_map {γ : Type} {g : α → Option γ} {h : β → γ} (hfg : ∀ a ∈ l, g a = (f a).map h) :
    l.mapM g = (l.mapM f).map (map h) := by
  induction l with
  | nil => rfl
  | cons a l ih =>
    rw [mapM_cons, mapM_cons, hfg a mem_cons_self,
      ih fun b hb => hfg b (mem_cons_of_mem _ hb)]
    cases f a with
    | none => rfl
    | some b =>
      cases l.mapM f with
      | none => rfl
      | some bs => rfl

theorem writeValue_arr (items : List Json) :
    writeValue (.arr items) = (items.mapM writeValue).map (listText '[' ']') := by
  have hfold : writeValue (.arr items) =
      ((items.map writeValue).mapM id).map (listText '[' ']') := fold_arr _ items
  rw [hfold, List.mapM_map]
  rfl

theorem writeValue_obj (members : List (Text × Json)) :
    writeValue (.obj members) =
      ((ofEntries members).mapM fun m =>
        (writeValue m.2).map fun t => memberText escape (m.1, t)).map
          (listText '{' '}') := by
  have hfold : writeValue (.obj members) =
      ((ofEntries (mapValues writeValue members)).mapM writeMember).map
        (listText '{' '}') := fold_obj _ members
  rw [hfold, ← mapValues_ofEntries, mapValues, List.mapM_map]
  rfl

/-- **The canonical form of a value is the text of its normal form.** -/
theorem writeValue_eq (j : Json) : writeValue j = (normalize j).map (text escape) := by
  induction j with
  | null | bool _ | str _ => simp [writeValue, text]
  | num literal =>
    have hfold : writeValue (.num literal) = writeJSONNumber literal := fold_num _ literal
    rw [hfold, normalize_num, Option.map_map]
    cases writeJSONNumber literal with
    | none => rfl
    | some t => simp [text]
  | arr items ih =>
    rw [writeValue_arr, normalize_arr, mapM_map ih, Option.map_map, Option.map_map]
    congr 1
    funext ks
    simp [text]
  | obj members ih =>
    have hmember : ∀ m ∈ ofEntries members,
        ((writeValue m.2).map fun t => memberText escape (m.1, t)) =
          ((normalize m.2).map fun v => (m.1, v)).map
            fun k => memberText escape (k.1, text escape k.2) := by
      intro m hm
      rw [ih m (mem_ofEntries hm), Option.map_map, Option.map_map]
      rfl
    rw [writeValue_obj, normalize_obj, mapM_map hmember, Option.map_map, Option.map_map]
    congr 1
    funext ks
    have htext : text escape (.obj ks) = listText '{' '}'
        ((mapValues (text escape) ks).map (memberText escape)) := fold_obj _ ks
    show _ = text escape (.obj ks)
    rw [htext, mapValues, List.map_map]
    rfl

theorem marshal_eq (j : Json) :
    marshal j = (normalize j).map fun k => Utf8.encode (text escape k) := by
  rw [marshal, writeValue_eq, Option.map_map]
  rfl

/-! ## Numbers in decimal -/

theorem isNumber_intText (n : Int) : IsNumber (intText n) := by
  unfold intText
  split_ifs
  · exact isNumber_neg_toDigits _
  · exact isNumber_toDigits _

theorem intOf_intText (n : Int) : intOf (intText n) = some n := by
  obtain ⟨c, ds, hds, hc, hrest, -⟩ := exists_toDigits n.natAbs
  have hvalue : Nat.ofDigitChars 10 (c :: ds) 0 = n.natAbs := hds ▸ Nat.ofDigitChars_ten_toDigits
  have hall : (c :: ds).all Char.isDigit = true :=
    all_eq_true.2 fun d hd => (mem_cons.1 hd).elim (fun h => h ▸ hc) (hrest d)
  unfold intText
  rw [hds]
  split_ifs with hneg
  · rw [intOf, if_pos rfl, if_pos ⟨cons_ne_nil _ _, hall⟩, hvalue]
    congr 1
    omega
  · have hne : c ≠ '-' := by
      rintro rfl
      exact absurd hc (by decide)
    rw [intOf, if_neg hne, if_pos hall, hvalue]
    congr 1
    omega

theorem plain_intText :
    (intText n).any (fun c => c == '.' || c == 'e' || c == 'E') = false := by
  have hdigit : ∀ c ∈ Nat.toDigits 10 n.natAbs, (c == '.' || c == 'e' || c == 'E') = false := by
    intro c hc
    have hd := isDigit_toDigits hc
    simp only [Bool.or_eq_false_iff, beq_eq_false_iff_ne]
    refine ⟨⟨?_, ?_⟩, ?_⟩ <;> rintro rfl <;> exact absurd hd (by decide)
  unfold intText
  rw [List.any_eq_false]
  split_ifs
  · intro c hc
    rcases mem_cons.1 hc with rfl | hc
    · decide
    · rw [hdigit c hc]
      exact Bool.false_ne_true
  · intro c hc
    rw [hdigit c hc]
    exact Bool.false_ne_true

theorem writeJSONNumber_intText (h : -maxSafeInteger ≤ n ∧ n ≤ maxSafeInteger) :
    writeJSONNumber (intText n) = some (intText n) := by
  rw [writeJSONNumber, plain_intText, if_neg Bool.false_ne_true, intOf_intText, bind_some,
    if_neg (by omega)]

theorem writeJSONNumber_some {literal t : Text} (h : writeJSONNumber literal = some t) :
    ∃ n, intOf literal = some n ∧ t = intText n ∧
      -maxSafeInteger ≤ n ∧ n ≤ maxSafeInteger := by
  unfold writeJSONNumber at h
  split_ifs at h
  obtain ⟨n, hn, h⟩ := bind_eq_some_iff.1 h
  split_ifs at h with hrange
  exact ⟨n, hn, (some.inj h).symm, by omega⟩

/-! ## Normal forms -/

/-- What the normal form of a value has. -/
structure NormalForm (k : Json) : Prop where
  normal : k.Normal
  wellFormed : k.WellFormed
  fixed : normalize k = some k

theorem mapM_of_fixed {f : α → Option α} (h : ∀ a ∈ l, f a = some a) :
    l.mapM f = some l := by
  induction l with
  | nil => rfl
  | cons a l ih =>
    rw [mapM_cons, h a mem_cons_self, ih fun b hb => h b (mem_cons_of_mem _ hb)]
    rfl

theorem exists_of_forall₂ {R : α → β → Prop} (h : Forall₂ R l bs) {b : β} (hb : b ∈ bs) :
    ∃ a ∈ l, R a b := by
  induction h with
  | nil => cases hb
  | cons hab _ ih =>
    rcases mem_cons.1 hb with rfl | hb
    · exact ⟨_, mem_cons_self, hab⟩
    · obtain ⟨a, ha, hR⟩ := ih hb
      exact ⟨a, mem_cons_of_mem _ ha, hR⟩

variable {members : List (Text × Json)} {k : Json}

/-- The members of the normal form of an object, one by one. -/
theorem related_of_normalize (h : normalize (.obj members) = some k) :
    ∃ ks, k = .obj ks ∧
      Related (fun v w => normalize v = some w) (ofEntries members) ks := by
  rw [normalize_obj] at h
  obtain ⟨ks, hks, rfl⟩ := map_eq_some_iff.1 h
  exact ⟨ks, rfl, related_of_mapM hks⟩

variable {ks : List (Text × Json)}

theorem normalize_of_related
    (h : Related (fun v w => normalize v = some w) (ofEntries members) ks) :
    normalize (.obj members) = some (.obj ks) := by
  rw [normalize_obj, mapM_of_related h]
  rfl

theorem normalize_of_sorted (hsorted : Sorted members)
    (h : Related (fun v w => normalize v = some w) members ks) :
    normalize (.obj members) = some (.obj ks) :=
  normalize_of_related ((ofEntries_of_sorted hsorted).symm ▸ h)

theorem normalForm_str (s : Text) : NormalForm (.str s) :=
  ⟨by simp [Json.Normal], numbers_str s, normalize_str s⟩

theorem normalForm_intText (h : (writeJSONNumber (intText n)).isSome = true) :
    NormalForm (.num (intText n)) := by
  obtain ⟨t, ht⟩ := isSome_iff_exists.1 h
  obtain ⟨m, hm, rfl, -⟩ := writeJSONNumber_some ht
  rw [intOf_intText] at hm
  cases hm
  exact ⟨normal_num _, (numbers_num _).2 (isNumber_intText n), by rw [normalize_num, ht]; rfl⟩

theorem normalForm_obj (hsorted : Sorted ks) (h : ∀ e ∈ ks, NormalForm e.2) :
    NormalForm (.obj ks) := by
  refine ⟨?_, ?_, ?_⟩
  · exact (normal_obj ks).2 ⟨hsorted, fun e he => (h e he).normal⟩
  · exact (numbers_obj ks).2 fun e he => (h e he).wellFormed
  · rw [normalize_obj, ofEntries_of_sorted hsorted, mapM_of_fixed]
    · rfl
    · intro e he
      rw [(h e he).fixed]
      rfl

/-- The members of an object in normal form are their own normal forms. -/
theorem related_of_fixed (hsorted : Sorted ks) (h : normalize (.obj ks) = some (.obj ks)) :
    Related (fun v w => normalize v = some w) ks ks := by
  obtain ⟨ks', heq, hrel⟩ := related_of_normalize h
  cases heq
  rwa [ofEntries_of_sorted hsorted] at hrel

variable {j : Json}

/-- **A normal form is ordered, can be written and read, and is its own normal form.** -/
theorem normalForm_of_normalize (h : normalize j = some k) :
    NormalForm k ∧ k.depth ≤ j.depth := by
  induction j generalizing k with
  | null =>
    cases h
    exact ⟨⟨by simp [Json.Normal], numbers_null, normalize_null⟩, le_rfl⟩
  | bool b =>
    cases h
    exact ⟨⟨by simp [Json.Normal], numbers_bool b, normalize_bool b⟩, le_rfl⟩
  | str s =>
    cases h
    exact ⟨normalForm_str s, le_rfl⟩
  | num literal =>
    obtain ⟨t, ht, rfl⟩ := map_eq_some_iff.1 h
    obtain ⟨n, -, rfl, hn⟩ := writeJSONNumber_some ht
    refine ⟨⟨by simp [Json.Normal], (numbers_num _).2 (isNumber_intText n), ?_⟩, by simp [depth]⟩
    rw [normalize_num, writeJSONNumber_intText hn]
    rfl
  | arr items ih =>
    rw [normalize_arr] at h
    obtain ⟨ks, hks, rfl⟩ := map_eq_some_iff.1 h
    have hform : ∀ k ∈ ks, ∃ v ∈ items, NormalForm k ∧ k.depth ≤ v.depth := by
      intro k hk
      obtain ⟨v, hv, hvk⟩ := exists_of_forall₂ (forall₂_of_mapM hks) hk
      exact ⟨v, hv, ih v hv hvk⟩
    refine ⟨⟨?_, ?_, ?_⟩, depth_arr_le ?_ (depth_arr_pos items)⟩
    · exact (normal_arr ks).2 fun k hk => (hform k hk).elim fun v hv => hv.2.1.normal
    · exact (numbers_arr ks).2 fun k hk => (hform k hk).elim fun v hv => hv.2.1.wellFormed
    · rw [normalize_arr,
        mapM_of_fixed fun k hk => (hform k hk).elim fun v hv => hv.2.1.fixed]
      rfl
    · intro k hk
      obtain ⟨v, hv, -, hdepth⟩ := hform k hk
      exact hdepth.trans_lt (depth_lt_of_mem_items hv)
  | obj members ih =>
    obtain ⟨ks, rfl, hrel⟩ := related_of_normalize h
    have hform : ∀ e ∈ ks, ∃ m ∈ members, NormalForm e.2 ∧ e.2.depth ≤ m.2.depth := by
      intro e he
      obtain ⟨m, hm, -, hR⟩ := hrel.exists_of_mem he
      exact ⟨m, mem_ofEntries hm, ih m (mem_ofEntries hm) hR⟩
    have hsorted : Sorted ks := hrel.sorted (sorted_ofEntries members)
    refine ⟨normalForm_obj hsorted fun e he => (hform e he).elim fun m hm => hm.2.1,
      depth_obj_le ?_ (depth_obj_pos members)⟩
    intro e he
    obtain ⟨m, hm, -, hdepth⟩ := hform e he
    exact hdepth.trans_lt (depth_lt_of_mem hm)

/-! ## Values that have a normal form -/

/-- A number that can be written. -/
def Safe (literal : Text) : Prop := (writeJSONNumber literal).isSome = true

instance (literal : Text) : Decidable (Safe literal) := inferInstanceAs (Decidable (_ = _))

/-- **A generic value has a canonical form exactly when all its numbers can be written.** -/
theorem normalize_isSome (hj : j.Normal) :
    (normalize j).isSome = true ↔ j.Numbers Safe := by
  induction j with
  | null | bool _ | str _ => simp
  | num literal => simp [Safe]
  | arr items ih =>
    rw [normal_arr] at hj
    rw [normalize_arr, isSome_map, mapM_isSome, numbers_arr]
    exact forall₂_congr fun v hv => ih v hv (hj v hv)
  | obj members ih =>
    rw [normal_obj] at hj
    rw [normalize_obj, isSome_map, mapM_isSome, ofEntries_of_sorted hj.1,
      numbers_obj]
    refine forall₂_congr fun m hm => ?_
    rw [← ih m hm (hj.2 m hm), isSome_map]

theorem marshal_isSome (hj : j.Normal) : (marshal j).isSome = true ↔ j.Numbers Safe := by
  rw [marshal_eq, isSome_map, normalize_isSome hj]

/-! ## Reading canonical bytes -/

theorem escape_escapes : Escapes escape := by
  intro c
  unfold escape
  split_ifs with hq hb h₁ h₂ h₃ h₄ h₅ hu
  -- the short escapes
  iterate 7
    · subst c
      exact ⟨_, .inl rfl, scanBody_short (by decide) (by decide)⟩
  · exact ⟨_, .inr rfl, scanBody_unicode (by omega)⟩
  · exact ⟨_, .inl rfl, scanBody_plain hq hb hu⟩

variable {j' : Json}

/-- Values with one normal form have one canonical form. -/
theorem marshal_congr (h : normalize j = normalize j') : marshal j = marshal j' := by
  rw [marshal_eq, marshal_eq, h]

theorem marshal_of_sorted (hsorted : Sorted members)
    (h : Related (fun v w => normalize v = some w) members ks) :
    marshal (.obj ks) = marshal (.obj members) := by
  have hnormal := normalize_of_sorted hsorted h
  refine marshal_congr ?_
  rw [hnormal]
  exact (normalForm_of_normalize hnormal).1.fixed

variable {bytes : Bytes}

/-- **Canonical bytes are read back as the normal form.** -/
theorem exists_of_marshal (h : marshal j = some bytes) (hdepth : j.depth ≤ maxNestingDepth) :
    ∃ k, normalize j = some k ∧ NormalForm k ∧ k.depth ≤ j.depth ∧
      parse (Utf8.decode bytes) = some k := by
  rw [marshal_eq] at h
  obtain ⟨k, hk, rfl⟩ := map_eq_some_iff.1 h
  obtain ⟨hform, hle⟩ := normalForm_of_normalize hk
  refine ⟨k, hk, hform, hle, ?_⟩
  rw [Utf8.decode_encode, parse_text escape_escapes hform.wellFormed (hle.trans hdepth)]

/-- **Canonical bytes determine the normal form.** -/
theorem normalize_eq_of_marshal (h : marshal j = some bytes) (h' : marshal j' = some bytes)
    (hdepth : j.depth ≤ maxNestingDepth) (hdepth' : j'.depth ≤ maxNestingDepth) :
    normalize j = normalize j' := by
  obtain ⟨k, hk, -, -, hparse⟩ := exists_of_marshal h hdepth
  obtain ⟨k', hk', -, -, hparse'⟩ := exists_of_marshal h' hdepth'
  rw [hk, hk', some.inj (hparse.symm.trans hparse')]

end MxKeys.Canonical
