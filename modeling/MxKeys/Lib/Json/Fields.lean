/-
# MxKeys.Lib.Json.Fields — when a struct and a generic map read the same values.

The same object can be decoded twice, into a struct and into a generic map, and the two need not
agree: a struct takes names up to the case of letters and merges a repeated map member into the map
it has, a generic map takes names as they are and keeps the last value.  They agree on a name that
is `Plain` in the object: every member that a struct would store there is spelled exactly so, and
there is at most one.

`decodeStruct_part` says what a part of the struct is after the last member, `lookup_generic` what a
generic map has under the name, and `decodeMap_generic` that a map read from either is the same.
-/
import MxKeys.Lib.Json.Decode

namespace MxKeys.Lib.Json

open List Option Assoc

variable {σ α : Type}

/-- The members of an object; none for any other value. -/
def members : Json → List (Text × Json)
  | .obj members => members
  | _ => []

/-- The member of an object under a name, `null` when there is none. -/
def lookup (name : Text) (members : List (Text × Json)) : Json :=
  (get name members).getD .null

/-- Every member that is stored where `name` is has that name, and there is at most one. -/
def Plain (members : List (Text × Json)) (name : Text) : Prop :=
  (∀ m ∈ members, foldName m.1 = foldName name → m.1 = name) ∧
    Once name members

instance (members : List (Text × Json)) (name : Text) : Decidable (Plain members name) :=
  inferInstanceAs (Decidable (_ ∧ List.Pairwise _ _))

variable {members : List (Text × Json)} {name : Text}

theorem Plain.tail {m : Text × Json} (h : Plain (m :: members) name) : Plain members name := by
  obtain ⟨hspelled, honce⟩ := h
  exact ⟨fun m' hm' => hspelled m' (mem_cons_of_mem _ hm'), (pairwise_cons.1 honce).2⟩

/-! ## One part of a struct -/

/-- The field stores into the part `part` of the struct, and does it with `decode`. -/
def Field.Sets (f : Field σ) (part : σ → α) (decode : α → Json → Option α) : Prop :=
  ∀ s j s', f.store s j = some s' → decode (part s) j = some (part s')

/-- The field leaves the part alone. -/
def Field.Keeps (f : Field σ) (part : σ → α) : Prop :=
  ∀ s j s', f.store s j = some s' → part s' = part s

/-- The field of a part: what the part holds is decoded over and put back. -/
def Field.of (name : Text) (part : σ → α) (set : σ → α → σ)
    (decode : α → Json → Option α) : Field σ :=
  ⟨name, fun s j => (decode (part s) j).map (set s)⟩

variable {part : σ → α} {set : σ → α → σ} {decode : α → Json → Option α}

theorem Field.sets_of (h : ∀ s v, part (set s v) = v) :
    (Field.of name part set decode).Sets part decode := by
  intro s j s' hs
  obtain ⟨v, hv, rfl⟩ := map_eq_some_iff.1 hs
  rw [hv, h]

theorem Field.keeps_of {β : Type} {other : σ → β} (h : ∀ s v, other (set s v) = other s) :
    (Field.of name part set decode).Keeps other := by
  intro s j s' hs
  obtain ⟨v, -, rfl⟩ := map_eq_some_iff.1 hs
  exact h s v

section Part

variable {fields : List (Field σ)} {f : Field σ} {part : σ → α} {decode : α → Json → Option α}
  {s s' : σ}

/-- A member of another name is stored elsewhere. -/
theorem storeMember_keeps (hkeeps : ∀ f' ∈ fields, f'.name ≠ f.name → f'.Keeps part)
    {m : Text × Json} (hspelled : foldName m.1 = foldName f.name → m.1 = f.name)
    (hne : m.1 ≠ f.name) (h : storeMember fields s m = some s') : part s' = part s := by
  rcases storeMember_cases h with rfl | ⟨f', hmem, hfold, hstore⟩
  · rfl
  · refine hkeeps f' hmem (fun hname => hne (hspelled ?_)) s m.2 s' hstore
    rw [← hfold, hname]

variable {members : List (Text × Json)}

theorem storeMembers_keeps (hkeeps : ∀ f' ∈ fields, f'.name ≠ f.name → f'.Keeps part)
    (hplain : Plain members f.name) (hnot : f.name ∉ members.map Prod.fst)
    (h : members.foldlM (storeMember fields) s = some s') :
    part s' = part s := by
  refine storeMembers_invariant (P := fun t => part t = part s) ?_ rfl h
  intro m hm t t' ht hstore
  have hne : m.1 ≠ f.name := fun heq => hnot (heq ▸ List.mem_map_of_mem hm)
  exact (storeMember_keeps hkeeps (hplain.1 m hm) hne hstore).trans ht

theorem storeMembers_part (hfor : fieldFor fields f.name = some f) (hsets : f.Sets part decode)
    (hkeeps : ∀ f' ∈ fields, f'.name ≠ f.name → f'.Keeps part) (hplain : Plain members f.name)
    (hnull : decode (part s) .null = some (part s))
    (h : members.foldlM (storeMember fields) s = some s') :
    decode (part s) (lookup f.name members) = some (part s') := by
  induction members generalizing s with
  | nil =>
    cases h
    exact hnull
  | cons m members ih =>
    simp only [foldlM_cons, bind, bind_eq_some_iff] at h
    obtain ⟨t, ht, h⟩ := h
    by_cases hname : m.1 = f.name
    · -- the one member of the name: the rest leaves the part alone
      have hnot : f.name ∉ members.map Prod.fst := by
        have honce := hplain.2
        rw [← hname] at honce ⊢
        exact honce.not_mem
      have hstore : f.store s m.2 = some t := by
        rwa [storeMember, hname, hfor] at ht
      have hlookup : lookup f.name (m :: members) = m.2 := by
        rw [lookup, get_cons, if_pos hname.symm, getD_some]
      rw [hlookup, storeMembers_keeps hkeeps hplain.tail hnot h]
      exact hsets s m.2 t hstore
    · have hpart : part t = part s :=
        storeMember_keeps hkeeps (hplain.1 m mem_cons_self) hname ht
      have hlookup : lookup f.name (m :: members) = lookup f.name members := by
        rw [lookup, get_cons, if_neg (Ne.symm hname)]
        rfl
      rw [hlookup, ← hpart]
      exact ih hplain.tail (by rw [hpart, hnull]) h

/-- **A part of a struct after its members**: what the field of a plain name makes of its member. -/
theorem decodeStruct_part {j : Json} (hfor : fieldFor fields f.name = some f)
    (hsets : f.Sets part decode) (hkeeps : ∀ f' ∈ fields, f'.name ≠ f.name → f'.Keeps part)
    (hnull : decode (part s) .null = some (part s)) (h : decodeStruct fields s j = some s')
    (hplain : Plain j.members f.name) :
    decode (part s) (lookup f.name j.members) = some (part s') := by
  cases j with
  | null =>
    cases h
    exact hnull
  | obj members => exact storeMembers_part hfor hsets hkeeps hplain hnull h
  | _ => cases h

end Part

/-! ## The generic map -/

/-- A name that occurs once has the generic value of its member. -/
theorem lookup_generic (h : Once name members) :
    lookup name (ofEntries (mapValues generic members)) =
      generic (lookup name members) := by
  have honce : Once name (mapValues generic members) := pairwise_map.2 h
  rw [lookup, get_ofEntries_of_once honce, get_mapValues, lookup]
  cases get name members with
  | none => exact generic_null.symm
  | some j => rfl

/-! ## Maps -/

theorem decodeMap_obj (element : Json → Option α) (old : List (Text × α))
    (members : List (Text × Json)) :
    decodeMap element old (.obj members) =
      (members.mapM fun e => (element e.2).map fun v => (e.1, v)).map (insertAll old) := by
  show members.foldlM (fun m e => (element e.2).map fun v => insert e.1 v m) old = _
  induction members generalizing old with
  | nil => rfl
  | cons e members ih =>
    rw [foldlM_cons, mapM_cons]
    cases element e.2 with
    | none => rfl
    | some v =>
      simp only [map_some, bind, bind_some, pure]
      rw [ih]
      cases members.mapM fun e => (element e.2).map fun v => (e.1, v) <;> rfl

variable {element : Json → Option α} {entries : List (Text × α)}

/-- The entries that were read, one by one. -/
theorem related_of_mapM
    (h : (members.mapM fun e => (element e.2).map fun v => (e.1, v)) = some entries) :
    Related (fun j v => element j = some v) members entries := by
  induction members generalizing entries with
  | nil =>
    cases h
    exact .nil
  | cons e members ih =>
    simp only [mapM_cons, bind, bind_eq_some_iff, pure, some.injEq,
      map_eq_some_iff] at h
    obtain ⟨_, ⟨v, hv, rfl⟩, rest, hrest, rfl⟩ := h
    exact .cons ⟨rfl, hv⟩ (ih hrest)

theorem mapM_of_related (h : Related (fun j v => element j = some v) members entries) :
    (members.mapM fun e => (element e.2).map fun v => (e.1, v)) = some entries := by
  induction h with
  | nil => rfl
  | @cons e e' _ _ he _ ih =>
    obtain ⟨k, v⟩ := e'
    obtain ⟨rfl, hv⟩ := he
    simp [mapM_cons, hv, ih]

variable {m : List (Text × α)}

/-- A map that was written entry by entry is read back. -/
theorem decodeMap_mapValues {encode : α → Json} (hm : Sorted m)
    (h : ∀ e ∈ m, element (encode e.2) = some e.2) :
    decodeMap element [] (.obj (mapValues encode m)) = some m := by
  rw [decodeMap_obj, mapM_of_related (related_mapValues h)]
  exact congrArg some (ofEntries_of_sorted hm)

variable {element' : Json → Option α}

theorem related_generic (h : Related (fun j v => element j = some v) members entries)
    (hel : ∀ m ∈ members, ∀ v, element m.2 = some v → element' (generic m.2) = some v) :
    Related (fun j v => element' j = some v) (mapValues generic members) entries := by
  induction h with
  | nil => exact .nil
  | cons he _ ih =>
    refine .cons ⟨he.1, hel _ mem_cons_self _ he.2⟩ ?_
    exact ih fun m hm => hel m (mem_cons_of_mem _ hm)

/-- **A map read from the generic value is the map read from the document**, when this holds of the
elements. -/
theorem decodeMap_generic
    (hel : ∀ m ∈ members, ∀ v, element m.2 = some v → element' (generic m.2) = some v)
    (h : decodeMap element [] (.obj members) = some entries) :
    decodeMap element' [] (generic (.obj members)) = some entries := by
  rw [decodeMap_obj] at h
  obtain ⟨read, hread, rfl⟩ := map_eq_some_iff.1 h
  have hrel := related_generic (related_of_mapM hread) hel
  rw [generic_obj, decodeMap_obj, mapM_of_related hrel.ofEntries]
  exact congrArg some (ofEntries_of_sorted (sorted_ofEntries read))

/-- The entries of a map that was read from an object in order. -/
theorem related_of_decodeMap (hsorted : Sorted members)
    (h : decodeMap element [] (.obj members) = some m) :
    Related (fun j v => element j = some v) members m := by
  rw [decodeMap_obj] at h
  obtain ⟨entries, hentries, rfl⟩ := map_eq_some_iff.1 h
  have hrel := related_of_mapM hentries
  rwa [show insertAll [] entries = entries from
    ofEntries_of_sorted (hrel.sorted hsorted)]

/-- A map is the same when its object is rewritten: the last member of each name is kept, in any
order, and the elements are read the same. -/
theorem decodeMap_rewritten {g : Json → Json} {members' : List (Text × Json)}
    {m' : List (Text × α)} (hperm : members'.Perm (ofEntries (mapValues g members)))
    (hel : ∀ e ∈ members, ∀ v v', element e.2 = some v → element (g e.2) = some v' → v' = v)
    (h : decodeMap element [] (.obj members) = some m)
    (h' : decodeMap element [] (.obj members') = some m') : m' = m := by
  rw [decodeMap_obj] at h h'
  obtain ⟨read, hread, rfl⟩ := map_eq_some_iff.1 h
  obtain ⟨read', hread', rfl⟩ := map_eq_some_iff.1 h'
  have hsorted := sorted_ofEntries (mapValues g members)
  refine ext_get (sorted_ofEntries read') (sorted_ofEntries read) fun k => ?_
  have hget := (related_of_mapM hread).ofEntries.get k
  have hget' := (related_of_mapM hread').ofEntries.get k
  rw [get_ofEntries_of_once (once_of_perm hsorted hperm k), get_of_perm hsorted hperm,
    ← mapValues_ofEntries, get_mapValues] at hget'
  show Assoc.get k (ofEntries read') = Assoc.get k (ofEntries read)
  generalize Assoc.get k (ofEntries read') = found' at hget' ⊢
  generalize Assoc.get k (ofEntries read) = found at hget ⊢
  cases hj : Assoc.get k (ofEntries members) with
  | none =>
    rw [hj] at hget hget'
    cases hget
    cases hget'
    rfl
  | some j =>
    rw [hj] at hget hget'
    cases hget with
    | some hv =>
      cases hget' with
      | some hv' => rw [hel (k, j) (mem_ofEntries (mem_of_get hj)) _ _ hv hv']

end MxKeys.Lib.Json
