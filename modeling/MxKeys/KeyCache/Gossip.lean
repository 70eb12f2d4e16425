/-
# MxKeys.KeyCache.Gossip — replicas that hear of the same keys in their own order.

Without Raft the cache is a last-writer-wins map: an entry arrives as a single update
(`handleKeyUpdate`, `applyEntryLocked`) or inside the state of another node (`handleSync`,
`mergeState`), and the newer timestamp stays.  Deliveries come in any order and more than once.

`replicas_converge_iff`: two replicas that have heard of the same entries hold the same keys,
whatever the order, exactly when no key has two different latest entries.  `BroadcastKeyUpdate`
speaks of a comparison by timestamp and hash; only the timestamp is compared, so of two entries of
one instant the first to arrive stays (`tied_entries_diverge`).
-/
import MxKeys.KeyCache.State

namespace MxKeys.KeyCache

open List

/-! ## Deliveries -/

/-- The place of an entry in the cache. -/
def KeyEntry.place (entry : KeyEntry) : String × String := (entry.serverName, entry.keyID)

/-- One round of the loops of `mergeState`: the entry under a place, `none` when it is nil. -/
def mergeEntry (keys : Keys) (item : (String × String) × Option KeyEntry) : Keys :=
  match item.2 with
  | none => keys
  | some entry =>
    match keys.lookup item.1 with
    | none => keys.insert item.1 entry
    | some existing =>
      if existing.timestamp < entry.timestamp then keys.insert item.1 entry else keys

/-- `mergeState`; the places of the remote state in the order the loops visit them. -/
def mergeState (keys : Keys) (remote : List ((String × String) × Option KeyEntry)) : Keys :=
  remote.foldl mergeEntry keys

/-- What reaches a replica. -/
inductive Delivery
  /-- A key update. -/
  | update (entry : KeyEntry)
  /-- The state of another node. -/
  | sync (remote : List ((String × String) × Option KeyEntry))

/-- What a message does to the map. -/
def Delivery.apply (keys : Keys) : Delivery → Keys
  | .update entry => applyEntryLocked keys entry
  | .sync remote => mergeState keys remote

/-- The entries of a delivery. -/
def Delivery.entries : Delivery → List KeyEntry
  | .update entry => [entry]
  | .sync remote => remote.filterMap (·.2)

/-- A remote state is a map, and its entries stand under their own names. -/
def Delivery.Proper : Delivery → Prop
  | .update _ => True
  | .sync remote => (remote.map Prod.fst).Nodup ∧
      ∀ item ∈ remote, ∀ entry, item.2 = some entry → item.1 = entry.place

/-- The keys of a replica that started empty. -/
def replica (deliveries : List Delivery) : Keys := deliveries.foldl Delivery.apply ∅

/-- The deliveries bring every one of the entries, and nothing else. -/
structure Brings (entries : Multiset KeyEntry) (deliveries : List Delivery) : Prop where
  proper : ∀ d ∈ deliveries, d.Proper
  heard : ∀ entry, entry ∈ entries ↔ ∃ d ∈ deliveries, entry ∈ d.entries

/-! ## Both paths are one -/

theorem mergeEntry_eq (keys : Keys) (entry : KeyEntry) :
    mergeEntry keys (entry.place, some entry) = applyEntryLocked keys entry := by
  unfold mergeEntry applyEntryLocked KeyEntry.place
  cases keys.lookup (entry.serverName, entry.keyID) with
  | none => rfl
  | some existing => rfl

/-- **Single updates and merges agree**: a delivery applies its entries one after another. -/
theorem Delivery.apply_eq {d : Delivery} (h : d.Proper) (keys : Keys) :
    d.apply keys = d.entries.foldl applyEntryLocked keys := by
  cases d with
  | update entry => rfl
  | sync remote =>
    have hplace := h.2
    show remote.foldl mergeEntry keys = (remote.filterMap (·.2)).foldl applyEntryLocked keys
    clear h
    induction remote generalizing keys with
    | nil => rfl
    | cons item remote ih =>
      have ih := fun keys => ih keys fun i hi => hplace i (mem_cons_of_mem _ hi)
      obtain ⟨place, entry⟩ := item
      cases entry with
      | none => exact ih keys
      | some entry =>
        obtain rfl : place = entry.place := hplace _ mem_cons_self entry rfl
        rw [foldl_cons, mergeEntry_eq, ih]
        rfl

variable {deliveries : List Delivery}

theorem replica_eq (h : ∀ d ∈ deliveries, d.Proper) :
    replica deliveries = (deliveries.flatMap Delivery.entries).foldl applyEntryLocked ∅ := by
  have hgen : ∀ keys, deliveries.foldl Delivery.apply keys =
      (deliveries.flatMap Delivery.entries).foldl applyEntryLocked keys := by
    induction deliveries with
    | nil => exact fun _ => rfl
    | cons d deliveries ih =>
      intro keys
      rw [foldl_cons, flatMap_cons, foldl_append,
        Delivery.apply_eq (h d mem_cons_self)]
      exact ih (fun d' hd' => h d' (mem_cons_of_mem _ hd')) _
  exact hgen ∅

/-! ## What a cache holds -/

/-- The cache holds, under every place, an entry that was heard of and is the latest. -/
structure HoldsLatest (keys : Keys) (heard : List KeyEntry) : Prop where
  found : ∀ place entry, keys.lookup place = some entry → entry ∈ heard ∧ entry.place = place
  latest : ∀ entry ∈ heard, ∃ x, keys.lookup entry.place = some x ∧
    entry.timestamp ≤ x.timestamp

theorem lookup_applyEntryLocked (keys : Keys) (entry : KeyEntry) (place : String × String) :
    (applyEntryLocked keys entry).lookup place = keys.lookup place ∨
      (place = entry.place ∧ (applyEntryLocked keys entry).lookup place = some entry) := by
  have hinsert : (keys.insert (entry.serverName, entry.keyID) entry).lookup place =
      keys.lookup place ∨ (place = entry.place ∧
        (keys.insert (entry.serverName, entry.keyID) entry).lookup place = some entry) := by
    by_cases hp : place = (entry.serverName, entry.keyID)
    · subst hp
      exact .inr ⟨rfl, Finmap.lookup_insert _⟩
    · exact .inl (Finmap.lookup_insert_of_ne _ hp)
  unfold applyEntryLocked
  split
  · split_ifs
    · exact hinsert
    · exact .inl rfl
  · exact hinsert

variable {keys : Keys} {entries : Multiset KeyEntry} {entry : KeyEntry} {heard : List KeyEntry}

theorem HoldsLatest.apply (h : HoldsLatest keys heard) (entry : KeyEntry) :
    HoldsLatest (applyEntryLocked keys entry) (heard ++ [entry]) := by
  refine ⟨?_, ?_⟩
  · intro place x hx
    rcases lookup_applyEntryLocked keys entry place with hsame | ⟨rfl, hnew⟩
    · rw [hsame] at hx
      obtain ⟨hmem, hplace⟩ := h.found place x hx
      exact ⟨mem_append_left _ hmem, hplace⟩
    · rw [hnew] at hx
      cases hx
      exact ⟨mem_append_right _ mem_cons_self, rfl⟩
  · intro x hx
    rcases mem_append.1 hx with hx | hx
    · exact Dominates.applyEntryLocked (h.latest x hx) entry
    · rw [mem_singleton.1 hx]
      exact dominates_applyEntryLocked keys entry

theorem holdsLatest_foldl (more : List KeyEntry) (h : HoldsLatest keys heard) :
    HoldsLatest (more.foldl applyEntryLocked keys) (heard ++ more) := by
  induction more generalizing keys heard with
  | nil => rwa [append_nil]
  | cons entry more ih =>
    have hnext := ih (h.apply entry)
    rwa [append_assoc] at hnext

/-- **A replica holds the latest entries of what it was brought.** -/
theorem Brings.holdsLatest (h : Brings entries deliveries) :
    HoldsLatest (replica deliveries) (deliveries.flatMap Delivery.entries) ∧
      ∀ entry, entry ∈ deliveries.flatMap Delivery.entries ↔ entry ∈ entries := by
  have hempty : HoldsLatest ∅ [] := by
    refine ⟨fun place entry hx => ?_, nofun⟩
    rw [Finmap.lookup_empty] at hx
    cases hx
  have hall := holdsLatest_foldl (deliveries.flatMap Delivery.entries) hempty
  rw [nil_append] at hall
  rw [replica_eq h.proper]
  exact ⟨hall, fun entry => mem_flatMap.trans (h.heard entry).symm⟩

/-- An entry that no later one is older than stays where it is. -/
theorem lookup_foldl_of_latest (more : List KeyEntry) (h : keys.lookup entry.place = some entry)
    (hlatest : ∀ x ∈ more, x.place = entry.place → x.timestamp ≤ entry.timestamp) :
    (more.foldl applyEntryLocked keys).lookup entry.place = some entry := by
  induction more generalizing keys with
  | nil => exact h
  | cons x more ih =>
    refine ih ?_ fun y hy => hlatest y (mem_cons_of_mem _ hy)
    rcases lookup_applyEntryLocked keys x entry.place with hsame | ⟨hplace, -⟩
    · rw [hsame, h]
    · have hdom : Dominates keys x := by
        refine ⟨entry, ?_, hlatest x mem_cons_self hplace.symm⟩
        show keys.lookup x.place = some entry
        rw [← hplace, h]
      rw [applyEntryLocked_of_dominates hdom, h]

/-! ## Convergence -/

/-- An entry that no other entry of its place is newer than. -/
def Latest (entries : Multiset KeyEntry) (entry : KeyEntry) : Prop :=
  entry ∈ entries ∧ ∀ x ∈ entries, x.place = entry.place → x.timestamp ≤ entry.timestamp

/-- One entry first, then all of them, each as an update of its own. -/
theorem brings_first (h : entry ∈ entries) :
    Brings entries ((entry :: entries.toList).map .update) := by
  refine ⟨fun d hd => ?_, fun x => ?_⟩
  · obtain ⟨x, -, rfl⟩ := mem_map.1 hd
    exact trivial
  · constructor
    · intro hx
      exact ⟨.update x, mem_map_of_mem (mem_cons_of_mem _ (Multiset.mem_toList.2 hx)),
        mem_cons_self⟩
    · rintro ⟨d, hd, hx⟩
      obtain ⟨y, hy, rfl⟩ := mem_map.1 hd
      obtain rfl := mem_singleton.1 hx
      rcases mem_cons.1 hy with rfl | hy
      · exact h
      · exact Multiset.mem_toList.1 hy

/-- The entry that comes first stays when it is one of the latest. -/
theorem replica_first (h : Latest entries entry) :
    (replica ((entry :: entries.toList).map .update)).lookup entry.place = some entry := by
  rw [replica_eq (brings_first h.1).proper]
  have hflat : ((entry :: entries.toList).map Delivery.update).flatMap Delivery.entries =
      entry :: entries.toList := by
    rw [flatMap_map]
    exact flatMap_singleton' _
  rw [hflat, foldl_cons]
  refine lookup_foldl_of_latest _ ?_ fun x hx => h.2 x (Multiset.mem_toList.1 hx)
  have hempty : applyEntryLocked ∅ entry = (∅ : Keys).insert entry.place entry := by
    unfold applyEntryLocked
    rw [Finmap.lookup_empty]
    rfl
  rw [hempty, Finmap.lookup_insert]

/-- **Replicas converge exactly when no place has two latest entries.** -/
theorem replicas_converge_iff (entries : Multiset KeyEntry) :
    (∀ ds ds', Brings entries ds → Brings entries ds' → replica ds = replica ds') ↔
      ∀ e e', Latest entries e → Latest entries e' → e.place = e'.place → e = e' := by
  constructor
  · intro hconv e e' he he' hplace
    have hsame := hconv _ _ (brings_first he.1) (brings_first he'.1)
    have hfirst := replica_first he
    rw [hsame, hplace, replica_first he'] at hfirst
    exact (Option.some.inj hfirst).symm
  · intro hunique ds ds' hds hds'
    obtain ⟨hholds, hmem⟩ := hds.holdsLatest
    obtain ⟨hholds', hmem'⟩ := hds'.holdsLatest
    -- what either replica holds is the latest entry of its place
    have hone : ∀ {ds : List Delivery}, HoldsLatest (replica ds) (ds.flatMap Delivery.entries) →
        (∀ e, e ∈ ds.flatMap Delivery.entries ↔ e ∈ entries) →
        ∀ place x, (replica ds).lookup place = some x → Latest entries x ∧ x.place = place := by
      intro ds hh hm place x hx
      obtain ⟨hheard, rfl⟩ := hh.found place x hx
      refine ⟨⟨(hm x).1 hheard, fun y hy hplace => ?_⟩, rfl⟩
      obtain ⟨z, hz, hle⟩ := hh.latest y ((hm y).2 hy)
      rw [hplace, hx] at hz
      cases hz
      exact hle
    refine Finmap.ext_lookup fun place => ?_
    cases hx : (replica ds).lookup place with
    | some x =>
      obtain ⟨hlatest, rfl⟩ := hone hholds hmem place x hx
      obtain ⟨y, hy, -⟩ := hholds'.latest x ((hmem' x).2 hlatest.1)
      obtain ⟨hlatest', hplace⟩ := hone hholds' hmem' _ y hy
      rw [hy, hunique x y hlatest hlatest' hplace.symm]
    | none =>
      cases hy : (replica ds').lookup place with
      | none => rfl
      | some y =>
        obtain ⟨hlatest, rfl⟩ := hone hholds' hmem' place y hy
        obtain ⟨x, hx', -⟩ := hholds.latest y ((hmem y).2 hlatest.1)
        rw [hx] at hx'
        cases hx'

/-- Two nodes that fetch one key in the same instant. -/
def tiedEntry (data : String) : KeyEntry := ⟨"s", "k", data, 0, 0, data, data⟩

/-- **Entries of one instant**: each replica keeps the one it hears of first. -/
theorem tied_entries_diverge :
    Brings {tiedEntry "a", tiedEntry "b"} [.update (tiedEntry "a"), .update (tiedEntry "b")] ∧
      Brings {tiedEntry "a", tiedEntry "b"} [.update (tiedEntry "b"), .update (tiedEntry "a")] ∧
      (replica [.update (tiedEntry "a"), .update (tiedEntry "b")]).lookup ("s", "k") =
        some (tiedEntry "a") ∧
      (replica [.update (tiedEntry "b"), .update (tiedEntry "a")]).lookup ("s", "k") =
        some (tiedEntry "b") := by
  refine ⟨⟨by simp [Delivery.Proper], by simp [Delivery.entries]⟩,
    ⟨by simp [Delivery.Proper], by simp [Delivery.entries, or_comm]⟩, ?_, ?_⟩
  · decide
  · decide

end MxKeys.KeyCache
