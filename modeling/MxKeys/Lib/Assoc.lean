/-
# MxKeys.Lib.Assoc — finite maps as association lists in key order.

A map from an ordered type is the list of its entries with strictly increasing keys, so that two
maps with the same entries are the same list and a map can be walked in key order. `insert` replaces
the entry of a key, and `ofEntries` inserts entries one after another, so that the last entry of a
key wins. `get` reads an entry and does not need the order.
-/
import Mathlib.Data.List.Basic
import Mathlib.Data.List.Pairwise
import Mathlib.Order.Lattice

namespace MxKeys.Lib

open List Option

/-! ## Partial functions on lists -/

section Partial

variable {α β : Type} {f : α → Option β} {l : List α} {bs : List β}

theorem forall₂_of_mapM (h : l.mapM f = some bs) : Forall₂ (fun a b => f a = some b) l bs := by
  induction l generalizing bs with
  | nil =>
    cases h
    exact .nil
  | cons a l ih =>
    rw [mapM_cons] at h
    obtain ⟨b, hb, h⟩ := bind_eq_some_iff.1 h
    obtain ⟨rest, hrest, h⟩ := bind_eq_some_iff.1 h
    cases h
    exact .cons hb (ih hrest)

theorem mapM_isSome : (l.mapM f).isSome = true ↔ ∀ a ∈ l, (f a).isSome = true := by
  induction l with
  | nil => simp
  | cons a l ih =>
    rw [mapM_cons, forall_mem_cons, ← ih]
    cases f a with
    | none => simp
    | some b => cases l.mapM f <;> simp

end Partial

namespace Assoc

variable {K V W : Type} [LinearOrder K]

/-- The first entry of `k`. -/
def get (k : K) : List (K × V) → Option V
  | [] => none
  | (k', v) :: m => if k = k' then some v else get k m

/-- Set the entry of `k`. -/
def insert (k : K) (v : V) : List (K × V) → List (K × V)
  | [] => [(k, v)]
  | (k', v') :: m =>
    if k < k' then (k, v) :: (k', v') :: m
    else if k = k' then (k, v) :: m
    else (k', v') :: insert k v m

/-- Insert entries one after another. -/
def insertAll (m : List (K × V)) (entries : List (K × V)) : List (K × V) :=
  entries.foldl (fun m e => insert e.1 e.2 m) m

/-- The map of a list of entries. -/
def ofEntries (entries : List (K × V)) : List (K × V) :=
  insertAll [] entries

/-- Remove the entry of `k`. -/
def erase (k : K) (m : List (K × V)) : List (K × V) :=
  m.filter (fun e => e.1 ≠ k)

/-- The keys increase strictly. -/
def Sorted (m : List (K × V)) : Prop :=
  m.Pairwise (fun a b => a.1 < b.1)

/-! ## Reading -/

@[simp] theorem get_nil (k : K) : get k ([] : List (K × V)) = none := rfl

theorem get_cons (k : K) (e : K × V) (m : List (K × V)) :
    get k (e :: m) = if k = e.1 then some e.2 else get k m := rfl

theorem get_insert (k k' : K) (v : V) (m : List (K × V)) :
    get k' (insert k v m) = if k' = k then some v else get k' m := by
  induction m with
  | nil => rfl
  | cons e m ih =>
    unfold insert
    split
    · rfl
    · split
      · subst k
        simp only [get_cons]
        split <;> rfl
      · simp only [get_cons, ih]
        split
        · rw [if_neg]
          rintro rfl
          contradiction
        · rfl

variable {k : K} {entries : List (K × V)}

/-- A key that occurs in no entry keeps what the map had. -/
theorem get_insertAll_of_not_mem (h : k ∉ entries.map Prod.fst) :
    ∀ m, get k (insertAll m entries) = get k m := by
  induction entries with
  | nil => exact fun _ => rfl
  | cons e entries ih =>
    intro m
    simp only [map_cons, mem_cons, not_or] at h
    show get k (insertAll (insert e.1 e.2 m) entries) = _
    rw [ih h.2, get_insert, if_neg h.1]

/-- No two entries have the key. -/
def Once (k : K) (entries : List (K × V)) : Prop :=
  entries.Pairwise fun e e' => ¬(e.1 = k ∧ e'.1 = k)

omit [LinearOrder K] in
theorem Once.not_mem {e : K × V} (h : Once e.1 (e :: entries)) :
    e.1 ∉ entries.map Prod.fst := by
  intro hmem
  obtain ⟨e', he', hk⟩ := mem_map.1 hmem
  exact (pairwise_cons.1 h).1 e' he' ⟨rfl, hk⟩

/-- A key that occurs once is read from its entry, whatever the other entries are. -/
theorem get_insertAll_of_once (h : Once k entries) :
    ∀ m, get k (insertAll m entries) = (get k entries).or (get k m) := by
  induction entries with
  | nil => exact fun _ => rfl
  | cons e entries ih =>
    intro m
    show get k (insertAll (insert e.1 e.2 m) entries) = _
    by_cases hk : k = e.1
    · subst hk
      rw [get_insertAll_of_not_mem h.not_mem]
      simp [get_insert, get_cons]
    · rw [ih (pairwise_cons.1 h).2, get_insert, if_neg hk]
      simp [get_cons, hk]

theorem get_ofEntries_of_once (h : Once k entries) :
    get k (ofEntries entries) = get k entries := by
  simp [ofEntries, get_insertAll_of_once h]

/-- The last entry wins. -/
theorem ofEntries_append (k : K) (v : V) (entries : List (K × V)) :
    ofEntries (entries ++ [(k, v)]) = insert k v (ofEntries entries) := by
  unfold ofEntries insertAll
  rw [foldl_append]
  rfl

theorem get_ofEntries_append (k : K) (v : V) (entries : List (K × V)) :
    get k (ofEntries (entries ++ [(k, v)])) = some v := by
  rw [ofEntries_append, get_insert, if_pos rfl]

theorem get_erase (k k' : K) (m : List (K × V)) :
    get k' (erase k m) = if k' = k then none else get k' m := by
  induction m with
  | nil => simp [erase]
  | cons e m ih =>
    unfold erase at ih ⊢
    rw [filter_cons]
    split
    · rename_i he
      simp only [get_cons, ih]
      split
      · rw [if_neg]
        rintro rfl
        simp_all
      · rfl
    · rename_i he
      simp only [ne_eq, decide_not, Bool.not_eq_true', decide_eq_false_iff_not, not_not] at he
      rw [ih, get_cons, he]
      split <;> rfl

variable {m : List (K × V)}

theorem mem_erase : e ∈ erase k m ↔ e ∈ m ∧ e.1 ≠ k := by
  rw [erase, mem_filter, decide_eq_true_iff]

variable {v : V}

theorem mem_of_get (h : get k m = some v) : (k, v) ∈ m := by
  induction m with
  | nil => cases h
  | cons e m ih =>
    rw [get_cons] at h
    split at h
    · rename_i hk
      cases h
      rw [hk]
      exact mem_cons_self
    · exact mem_cons_of_mem _ (ih h)

theorem get_isSome_of_mem (h : e ∈ m) : (get e.1 m).isSome := by
  induction m with
  | nil => cases h
  | cons e' m ih =>
    rw [get_cons]
    split
    · rfl
    · rename_i hne
      cases h with
      | head => exact absurd rfl hne
      | tail _ h => exact ih h

/-! ## Entries -/

theorem mem_keys_iff : k ∈ m.map Prod.fst ↔ (get k m).isSome := by
  constructor
  · intro h
    obtain ⟨e, he, rfl⟩ := mem_map.1 h
    exact get_isSome_of_mem he
  · intro h
    obtain ⟨v, hv⟩ := isSome_iff_exists.1 h
    exact mem_map_of_mem (mem_of_get hv)

theorem mem_keys_insert {k' : K} :
    k' ∈ (insert k v m).map Prod.fst ↔ k' = k ∨ k' ∈ m.map Prod.fst := by
  rw [mem_keys_iff, mem_keys_iff, get_insert]
  split <;> simp [*]

theorem mem_insert (h : e ∈ insert k v m) :
    e = (k, v) ∨ e ∈ m := by
  induction m with
  | nil => simpa [insert] using h
  | cons e' m ih =>
    unfold insert at h
    split at h
    · simpa using h
    · split at h
      · rcases mem_cons.1 h with h | h
        · exact .inl h
        · exact .inr (mem_cons_of_mem _ h)
      · rcases mem_cons.1 h with h | h
        · exact .inr (h ▸ mem_cons_self)
        · exact (ih h).imp_right (mem_cons_of_mem _)

theorem mem_insertAll :
    ∀ {m}, e ∈ insertAll m entries → e ∈ m ∨ e ∈ entries := by
  induction entries with
  | nil => exact .inl
  | cons e' entries ih =>
    intro m h
    rcases ih (show e ∈ insertAll (insert e'.1 e'.2 m) entries from h) with h | h
    · rcases mem_insert h with h | h
      · exact .inr (h ▸ mem_cons_self)
      · exact .inl h
    · exact .inr (mem_cons_of_mem _ h)

theorem mem_ofEntries (h : e ∈ ofEntries entries) :
    e ∈ entries :=
  (mem_insertAll h).resolve_left not_mem_nil

/-! ## Order -/

theorem sorted_insert (k : K) (v : V) (hm : Sorted m) :
    Sorted (insert k v m) := by
  induction m with
  | nil => exact pairwise_singleton _ _
  | cons e m ih =>
    obtain ⟨hlow, hm⟩ := pairwise_cons.1 hm
    unfold insert
    split
    · rename_i hlt
      refine pairwise_cons.2 ⟨fun e' he' => ?_, pairwise_cons.2 ⟨hlow, hm⟩⟩
      rcases mem_cons.1 he' with rfl | he'
      · exact hlt
      · exact lt_trans hlt (hlow e' he')
    · rename_i hge
      split
      · subst k
        exact pairwise_cons.2 ⟨hlow, hm⟩
      · rename_i hne
        refine pairwise_cons.2 ⟨fun e' he' => ?_, ih hm⟩
        rcases mem_insert he' with rfl | he'
        · exact lt_of_le_of_ne (not_lt.1 hge) (Ne.symm hne)
        · exact hlow e' he'

theorem perm_insert (k : K) (v : V) (hm : Sorted m) :
    (insert k v m).Perm ((k, v) :: erase k m) := by
  induction m with
  | nil => exact .refl _
  | cons e m ih =>
    obtain ⟨hlow, hm⟩ := pairwise_cons.1 hm
    -- an entry behind one that is not before `k` is kept
    have hkept : ∀ {m' : List (K × V)}, (∀ e' ∈ m', k < e'.1) → erase k m' = m' :=
      fun h => filter_eq_self.2 fun e' he' => decide_eq_true (ne_of_gt (h e' he'))
    unfold insert
    split
    · rename_i hlt
      rw [hkept (forall_mem_cons.2 ⟨hlt, fun e' he' => lt_trans hlt (hlow e' he')⟩)]
    · split
      · subst k
        rw [erase, filter_cons_of_neg (by simp), ← erase, hkept hlow]
      · rename_i hne
        rw [erase, filter_cons_of_pos (by simpa using Ne.symm hne), ← erase]
        exact ((ih hm).cons e).trans (.swap _ _ _)

theorem sorted_insertAll (entries : List (K × V)) :
    ∀ {m}, Sorted m → Sorted (insertAll m entries) := by
  induction entries with
  | nil => exact fun hm => hm
  | cons e entries ih => exact fun hm => ih (sorted_insert e.1 e.2 hm)

theorem sorted_ofEntries (entries : List (K × V)) : Sorted (ofEntries entries) :=
  sorted_insertAll entries Pairwise.nil

theorem sorted_erase (k : K) (hm : Sorted m) : Sorted (erase k m) :=
  Pairwise.filter _ hm

/-- Inserting at the end: a key above all others goes last. -/
theorem insert_append_of_lt (v : V) (h : ∀ e ∈ m, e.1 < k) :
    insert k v m = m ++ [(k, v)] := by
  induction m with
  | nil => rfl
  | cons e m ih =>
    have he := h e mem_cons_self
    unfold insert
    rw [if_neg (lt_asymm he), if_neg (ne_of_gt he), ih fun e' he' => h e' (mem_cons_of_mem _ he')]
    rfl

theorem insertAll_of_sorted :
    ∀ {m}, Sorted (m ++ entries) → insertAll m entries = m ++ entries := by
  induction entries with
  | nil => intro m _; simp [insertAll]
  | cons e entries ih =>
    intro m hm
    have hlow : ∀ e' ∈ m, e'.1 < e.1 := fun e' he' =>
      (pairwise_append.1 hm).2.2 e' he' e mem_cons_self
    show insertAll (insert e.1 e.2 m) entries = _
    rw [insert_append_of_lt e.2 hlow, ih (by rwa [append_assoc])]
    simp

/-- A list that is already a map is the map of its entries. -/
theorem ofEntries_of_sorted (hm : Sorted m) : ofEntries m = m :=
  insertAll_of_sorted hm

theorem Once.get_of_mem (h : Once e.1 m) (he : e ∈ m) : Assoc.get e.1 m = some e.2 := by
  induction m with
  | nil => cases he
  | cons e' m ih =>
    obtain ⟨hhead, h⟩ := pairwise_cons.1 h
    rw [get_cons]
    rcases mem_cons.1 he with rfl | he
    · rw [if_pos rfl]
    · rw [if_neg fun heq => hhead e he ⟨heq.symm, rfl⟩, ih h he]

/-- The keys of a map occur once, in whatever order its entries are. -/
theorem once_of_perm {m' : List (K × V)} (hm : Sorted m) (h : m'.Perm m) (k : K) : Once k m' := by
  refine h.symm.pairwise (hm.imp fun hlt heq => ?_) fun heq heq' => heq ⟨heq'.2, heq'.1⟩
  exact hlt.ne (heq.1.trans heq.2.symm)

theorem get_of_mem (hm : Sorted m) (he : e ∈ m) : get e.1 m = some e.2 :=
  (once_of_perm hm (.refl m) e.1).get_of_mem he

theorem forall_mem_iff (hm : Sorted m) {P : V → Prop} :
    (∀ e ∈ m, P e.2) ↔ ∀ k v, get k m = some v → P v :=
  ⟨fun h _ _ hget => h _ (mem_of_get hget), fun h e he => h e.1 e.2 (get_of_mem hm he)⟩

/-- The order of the entries does not matter for reading. -/
theorem get_of_perm {m' : List (K × V)} (hm : Sorted m) (h : m'.Perm m) (k : K) :
    get k m' = get k m := by
  cases hget : get k m' with
  | some v => exact (get_of_mem hm (h.mem_iff.1 (mem_of_get hget))).symm
  | none =>
    cases hget' : get k m with
    | none => rfl
    | some v =>
      have hsome := get_isSome_of_mem (h.mem_iff.2 (mem_of_get hget'))
      rw [hget] at hsome
      cases hsome

/-- **Maps with the same entries are the same list.** -/
theorem ext_get {m' : List (K × V)} (hm : Sorted m) (hm' : Sorted m')
    (h : ∀ k, get k m = get k m') :
    m = m' := by
  have hmem : ∀ e, e ∈ m ↔ e ∈ m' := by
    intro e
    constructor
    · intro he
      exact mem_of_get ((h e.1).symm.trans (get_of_mem hm he))
    · intro he
      exact mem_of_get ((h e.1).trans (get_of_mem hm' he))
  have hnodup : ∀ {l : List (K × V)}, Sorted l → l.Nodup := fun hl =>
    hl.imp fun hlt heq => absurd (congrArg Prod.fst heq) (ne_of_lt hlt)
  have hperm : m.Perm m' := (perm_ext_iff_of_nodup (hnodup hm) (hnodup hm')).2 hmem
  exact hperm.eq_of_pairwise (fun a b _ _ hab hba => absurd hab (lt_asymm hba)) hm hm'

/-- Setting an entry to what it is changes nothing. -/
theorem insert_of_get (hm : Sorted m) (h : get k m = some v) :
    insert k v m = m := by
  refine ext_get (sorted_insert k v hm) hm fun k' => ?_
  rw [get_insert]
  split_ifs with hk
  · rw [hk, h]
  · rfl

theorem erase_of_get (h : get k m = none) : erase k m = m := by
  refine filter_eq_self.2 fun e he => decide_eq_true ?_
  rintro rfl
  have hsome := get_isSome_of_mem he
  rw [h] at hsome
  cases hsome

theorem erase_insert (hm : Sorted m) (k : K) (v : V) :
    erase k (insert k v m) = erase k m := by
  refine ext_get (sorted_erase k (sorted_insert k v hm)) (sorted_erase k hm) fun k' => ?_
  rw [get_erase, get_erase]
  split_ifs with hk
  · rfl
  · rw [get_insert, if_neg hk]

/-! ## Values -/

/-- Apply a partial function to the values and drop the entries where it has none. -/
def filterValues (f : V → Option W) (m : List (K × V)) : List (K × W) :=
  m.filterMap fun e => (f e.2).map fun w => (e.1, w)

omit [LinearOrder K] in
theorem mem_filterValues {f : V → Option W} {e : K × W} (h : e ∈ filterValues f m) :
    ∃ v, (e.1, v) ∈ m ∧ f v = some e.2 := by
  obtain ⟨e', he', hf⟩ := mem_filterMap.1 h
  obtain ⟨w, hw, rfl⟩ := map_eq_some_iff.1 hf
  exact ⟨e'.2, he', hw⟩

theorem sorted_filterValues (f : V → Option W) (hm : Sorted m) :
    Sorted (filterValues f m) := by
  refine Pairwise.filterMap _ (fun e e' hlt b hb b' hb' => ?_) hm
  obtain ⟨w, -, rfl⟩ := map_eq_some_iff.1 hb
  obtain ⟨w', -, rfl⟩ := map_eq_some_iff.1 hb'
  exact hlt

theorem get_filterValues (f : V → Option W) (hm : Sorted m) (k : K) :
    get k (filterValues f m) = (get k m).bind f := by
  cases hget : get k m with
  | none =>
    cases hfilter : get k (filterValues f m) with
    | none => rfl
    | some w =>
      obtain ⟨v, hv, -⟩ := mem_filterValues (mem_of_get hfilter)
      rw [get_of_mem hm hv] at hget
      cases hget
  | some v =>
    rw [bind_some]
    cases hf : f v with
    | some w =>
      refine get_of_mem (e := (k, w)) (sorted_filterValues f hm) (mem_filterMap.2 ?_)
      exact ⟨(k, v), mem_of_get hget, by rw [hf]; rfl⟩
    | none =>
      cases hfilter : get k (filterValues f m) with
      | none => rfl
      | some w =>
        obtain ⟨v', hv', hf'⟩ := mem_filterValues (mem_of_get hfilter)
        have hsame : some v' = some v := (get_of_mem hm hv').symm.trans hget
        rw [some.inj hsame, hf] at hf'
        cases hf'

/-- Entry by entry the same keys, and values in the relation. -/
def Related (R : V → W → Prop) (m : List (K × V)) (m' : List (K × W)) : Prop :=
  Forall₂ (fun e e' => e.1 = e'.1 ∧ R e.2 e'.2) m m'

variable {R : V → W → Prop} {m' : List (K × W)}

theorem Related.insert (h : Related R m m') (k : K) {w : W} (hvw : R v w) :
    Related R (insert k v m) (insert k w m') := by
  induction h with
  | nil => exact .cons ⟨rfl, hvw⟩ .nil
  | @cons e e' m m' he hm ih =>
    obtain ⟨k₁, v₁⟩ := e
    obtain ⟨k₂, w₁⟩ := e'
    obtain ⟨rfl, hvw₁⟩ := he
    unfold Assoc.insert
    split_ifs
    · exact .cons ⟨rfl, hvw⟩ (.cons ⟨rfl, hvw₁⟩ hm)
    · exact .cons ⟨rfl, hvw⟩ hm
    · exact .cons ⟨rfl, hvw₁⟩ ih

theorem Related.insertAll {entries' : List (K × W)} (h : Related R entries entries') :
    ∀ {m m'}, Related R m m' → Related R (insertAll m entries) (insertAll m' entries') := by
  induction h with
  | nil => exact fun hm => hm
  | @cons e e' _ _ he _ ih =>
    intro m m' hm
    obtain ⟨k, v⟩ := e
    obtain ⟨k', w⟩ := e'
    obtain ⟨rfl, hvw⟩ := he
    exact ih (hm.insert k hvw)

theorem Related.ofEntries {entries' : List (K × W)} (h : Related R entries entries') :
    Related R (ofEntries entries) (ofEntries entries') :=
  h.insertAll .nil

theorem Related.get (h : Related R m m') (k : K) : Option.Rel R (get k m) (get k m') := by
  induction h with
  | nil => exact .none
  | @cons e e' _ _ he _ ih =>
    rw [get_cons, get_cons, he.1]
    split_ifs
    · exact .some he.2
    · exact ih

theorem Related.get_some (h : Related R m m') (hv : Assoc.get k m = some v) :
    ∃ w, Assoc.get k m' = some w ∧ R v w := by
  have hrel := h.get k
  rw [hv] at hrel
  generalize Assoc.get k m' = o at hrel ⊢
  cases hrel with
  | some hR => exact ⟨_, rfl, hR⟩

theorem Related.some_get (h : Related R m m') {w : W} (hw : Assoc.get k m' = some w) :
    ∃ v, Assoc.get k m = some v ∧ R v w := by
  have hrel := h.get k
  rw [hw] at hrel
  generalize Assoc.get k m = o at hrel ⊢
  cases hrel with
  | some hR => exact ⟨_, rfl, hR⟩

theorem Related.erase (h : Related R m m') (k : K) : Related R (erase k m) (erase k m') := by
  induction h with
  | nil => exact .nil
  | @cons e e' _ _ he _ ih =>
    unfold Assoc.erase at ih ⊢
    rw [filter_cons, filter_cons, he.1]
    split_ifs
    · exact .cons he ih
    · exact ih

omit [LinearOrder K] in
theorem Related.keys (h : Related R m m') : m.map Prod.fst = m'.map Prod.fst := by
  induction h with
  | nil => rfl
  | cons he _ ih => rw [map_cons, map_cons, he.1, ih]

omit [LinearOrder K] in
theorem Related.exists_of_mem (h : Related R m m') {e' : K × W} (he' : e' ∈ m') :
    ∃ e ∈ m, e.1 = e'.1 ∧ R e.2 e'.2 := by
  induction h with
  | nil => cases he'
  | cons he _ ih =>
    rcases mem_cons.1 he' with rfl | he'
    · exact ⟨_, mem_cons_self, he⟩
    · obtain ⟨e, hmem, hR⟩ := ih he'
      exact ⟨e, mem_cons_of_mem _ hmem, hR⟩

theorem Related.sorted (h : Related R m m') (hm : Sorted m) : Sorted m' := by
  have hkeys : (m'.map Prod.fst).Pairwise (· < ·) := h.keys ▸ pairwise_map.2 hm
  exact pairwise_map.1 hkeys

/-- Apply a function to the values. -/
def mapValues (f : V → W) (m : List (K × V)) : List (K × W) :=
  m.map fun e => (e.1, f e.2)

omit [LinearOrder K] in
theorem mapValues_of_fixed {f : V → V} (h : ∀ e ∈ m, f e.2 = e.2) :
    mapValues f m = m := by
  rw [mapValues, map_congr_left (g := id) fun e he => by rw [h e he]; rfl, List.map_id]

variable {f : V → W}

omit [LinearOrder K] in
theorem related_mapValues {R : W → V → Prop} (h : ∀ e ∈ m, R (f e.2) e.2) :
    Related R (mapValues f m) m := by
  induction m with
  | nil => exact .nil
  | cons e m ih =>
    exact .cons ⟨rfl, h e mem_cons_self⟩ (ih fun e' he' => h e' (mem_cons_of_mem _ he'))

theorem sorted_mapValues : Sorted (mapValues f m) ↔ Sorted m :=
  pairwise_map

theorem mapValues_insert (f : V → W) (k : K) (v : V) (m : List (K × V)) :
    mapValues f (insert k v m) = insert k (f v) (mapValues f m) := by
  induction m with
  | nil => rfl
  | cons e m ih =>
    unfold mapValues at ih
    simp only [mapValues, insert, map_cons]
    split
    · rfl
    · split
      · rfl
      · rw [map_cons, ih]

theorem mapValues_insertAll (f : V → W) (entries : List (K × V)) :
    ∀ m, mapValues f (insertAll m entries) = insertAll (mapValues f m) (mapValues f entries) := by
  induction entries with
  | nil => exact fun _ => rfl
  | cons e entries ih =>
    intro m
    show mapValues f (insertAll (insert e.1 e.2 m) entries) = _
    rw [ih, mapValues_insert]
    rfl

theorem mapValues_ofEntries (f : V → W) (entries : List (K × V)) :
    mapValues f (ofEntries entries) = ofEntries (mapValues f entries) :=
  mapValues_insertAll f entries []

omit [LinearOrder K] in
theorem filterValues_mapValues {g : W → Option V} (h : ∀ e ∈ m, g (f e.2) = some e.2) :
    filterValues g (mapValues f m) = m := by
  induction m with
  | nil => rfl
  | cons e m ih =>
    have hrest := ih fun e' he' => h e' (mem_cons_of_mem _ he')
    unfold filterValues mapValues at hrest ⊢
    rw [map_cons, filterMap_cons, h e mem_cons_self, hrest]
    rfl

theorem get_mapValues (f : V → W) (k : K) (m : List (K × V)) :
    get k (mapValues f m) = (get k m).map f := by
  induction m with
  | nil => rfl
  | cons e m ih =>
    show (if k = e.1 then some (f e.2) else get k (mapValues f m)) = _
    rw [get_cons, ih]
    split <;> rfl

end Assoc

end MxKeys.Lib
