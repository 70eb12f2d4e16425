/-
# MxKeys.Wal.Rewrite — cutting the log down.

`TruncateAfter` and `TruncateBefore` read the log, write the entries that stay to a new file, and
rename it into place.  Whatever `ReadAll` returns can be written and read again (`readAll_readable`,
`readAll_rewriteLocked`): an entry that was decoded inside its record is not nested too deep for the
next one.  What is appended afterwards is not hidden by a torn tail (`appended_after_rewrite`).
-/
import MxKeys.Wal.Format

namespace MxKeys.Wal

open MxKeys.Lib
open MxKeys.Raft (WalStatus)
open List Option Json

/-! ## What was read can be read again -/

theorem decodeUint_lt {old n : Nat} {j : Json} (hold : old < 18446744073709551616)
    (h : decodeUint old j = some n) : n < 18446744073709551616 := by
  cases j with
  | num literal =>
    simp only [decodeUint, parseUint] at h
    split at h
    · rename_i hlit
      cases h
      exact hlit.2.2
    · cases h
  | null =>
    cases h
    exact hold
  | _ => cases h

/-- Storing a member of a document keeps an entry readable. -/
theorem storeMember_readable {e e' : Entry} {m : Text × Json} (he : Readable e)
    (hdepth : m.2.depth < maxNestingDepth)
    (h : storeMember entryFields e m = some e') : Readable e' := by
  unfold storeMember at h
  split at h
  · rename_i f hf
    have hmem : f ∈ entryFields := by
      unfold fieldFor at hf
      rcases or_eq_some_iff.1 hf with hf | ⟨_, hf⟩
      · exact mem_of_find?_eq_some hf
      · exact mem_of_find?_eq_some hf
    simp only [entryFields, mem_cons, not_mem_nil, or_false] at hmem
    rcases hmem with rfl | rfl | rfl
    · obtain ⟨n, hn, rfl⟩ := map_eq_some_iff.1 h
      exact ⟨⟨decodeUint_lt he.1.1 hn, he.1.2⟩, he.2⟩
    · obtain ⟨n, hn, rfl⟩ := map_eq_some_iff.1 h
      exact ⟨⟨he.1.1, decodeUint_lt he.1.2 hn⟩, he.2⟩
    · cases h
      exact ⟨he.1, hdepth⟩
  · cases h
    exact he

theorem unmarshalEntry_readable {payload : Bytes} {e : Entry}
    (h : unmarshalEntry payload = some e) : Readable e := by
  simp only [unmarshalEntry, bind, bind_eq_some_iff] at h
  obtain ⟨j, hj, h⟩ := h
  have hdepth : j.depth ≤ maxNestingDepth := (parse_wellFormed hj).2
  have hnew : Readable ⟨0, 0, .null⟩ := readable_null ⟨by decide, by decide⟩
  cases j with
  | null =>
    cases h
    exact hnew
  | obj members =>
    rw [decodeStruct_obj] at h
    refine storeMembers_invariant (fun m hm e e' he => storeMember_readable he ?_) hnew h
    exact lt_of_lt_of_le (depth_lt_of_mem hm) hdepth
  | _ => cases h

theorem readRecords_readable (key bytes : Bytes) : ∀ e ∈ (readRecords key bytes).1, Readable e := by
  induction hn : bytes.length using Nat.strongRecOn generalizing bytes with
  | ind n ih =>
    rcases readRecords_cases key bytes with rfl | ⟨status, -, hread⟩ | ⟨e, rest, hrec⟩
    · rw [readRecords_nil]
      exact nofun
    · rw [hread]
      exact nofun
    · rw [hrec.readRecords]
      obtain ⟨payload, -, hentry⟩ := id hrec
      exact forall_mem_cons.2 ⟨unmarshalEntry_readable hentry,
        ih rest.length (hn ▸ hrec.rest_lt) rest rfl⟩

/-- **Every entry that `ReadAll` returns can be written and read again.** -/
theorem readAll_readable (key file : Bytes) : ∀ e ∈ (readAll key file).1, Readable e := by
  unfold readAll
  split_ifs
  · exact nofun
  · exact nofun
  · exact readRecords_readable key _

/-! ## Rewriting -/

/-- The bytes that `rewriteLocked` renames into place, or nothing when a record cannot be written.
-/
def rewriteLocked (key : Bytes) (keep : List Entry) : Option Bytes :=
  (keep.mapM (appendLocked key)).map fun records => walMagic ++ records.flatten

theorem readAll_rewriteLocked {key file : Bytes} {keep : List Entry}
    (hkeep : ∀ e ∈ keep, Readable e) (h : rewriteLocked key keep = some file) :
    readAll key file = (keep, .clean) := by
  obtain ⟨records, hrecords, rfl⟩ := map_eq_some_iff.1 h
  have hall : keep.all shallow = true :=
    List.all_eq_true.2 fun e he => decide_eq_true (hkeep e he).2
  rw [readAll_magic, readRecords_written (forall₂_of_mapM hrecords) fun e he => (hkeep e he).1,
    if_pos hall, takeWhile_eq_self_iff.2 fun e he => List.all_eq_true.1 hall e he]

/-- `filterRewrite`: the new file, or nothing when the log was tampered with or a record cannot be
written.  A corrupt tail is dropped. -/
def filterRewrite (key file : Bytes) (keep : Entry → Bool) : Option Bytes :=
  if (readAll key file).2 = .tampered then none
  else rewriteLocked key ((readAll key file).1.filter keep)

/-- **After a rewrite, `ReadAll` returns what was kept.** -/
theorem readAll_filterRewrite {key file file' : Bytes} {keep : Entry → Bool}
    (h : filterRewrite key file keep = some file') :
    readAll key file' = ((readAll key file).1.filter keep, .clean) := by
  unfold filterRewrite at h
  split at h
  · cases h
  · exact readAll_rewriteLocked
      (fun e he => readAll_readable key file e (mem_of_mem_filter he)) h

/-- **A rewrite heals the log.**  Whatever stood behind the last whole record, the entries appended
after `TruncateAfter` or `TruncateBefore` are read back behind those that were kept. -/
theorem appended_after_rewrite {key file file' : Bytes} {keep : Entry → Bool}
    (h : filterRewrite key file keep = some file') {entries : List Entry}
    (hentries : ∀ e ∈ entries, Readable e) {records : List Bytes}
    (hrecords : entries.mapM (appendLocked key) = some records) :
    readAll key (file' ++ records.flatten) =
      ((readAll key file).1.filter keep ++ entries, .clean) := by
  unfold filterRewrite at h
  split at h
  · cases h
  · obtain ⟨kept, hkept, rfl⟩ := map_eq_some_iff.1 h
    refine readAll_rewriteLocked (forall_mem_append.2 ⟨fun e he => ?_, hentries⟩) ?_
    · exact readAll_readable key file e (mem_of_mem_filter he)
    · -- the file is the one that a rewrite to all of these entries would have made
      simp [rewriteLocked, mapM_append, hkept, hrecords]

/-- A file with one entry and a byte too many is cut, and takes the next entry. -/
theorem appended_after_rewrite_torn : ∃ old new file,
    appendLocked [1] ⟨1, 1, .null⟩ = some old ∧ appendLocked [1] ⟨2, 1, .null⟩ = some new ∧
      (readAll [1] (walMagic ++ old ++ [7])).2 = .corrupt ∧
      filterRewrite [1] (walMagic ++ old ++ [7]) (fun e => decide (e.index ≤ 5)) = some file ∧
      readAll [1] (file ++ new) = ([⟨1, 1, .null⟩, ⟨2, 1, .null⟩], .clean) := by
  have hfirst : Readable ⟨1, 1, .null⟩ := readable_null ⟨by decide, by decide⟩
  have hsecond : Readable ⟨2, 1, .null⟩ := readable_null ⟨by decide, by decide⟩
  have hwritten : (appendLocked [1] ⟨1, 1, .null⟩).isSome ∧
      (appendLocked [1] ⟨2, 1, .null⟩).isSome := by decide +kernel
  obtain ⟨old, hold⟩ := isSome_iff_exists.1 hwritten.1
  obtain ⟨new, hnew⟩ := isSome_iff_exists.1 hwritten.2
  have htorn : readAll [1] (walMagic ++ old ++ [7]) = ([⟨1, 1, .null⟩], .corrupt) := by
    rw [append_assoc, readAll_magic, (recordAt_append hfirst hold [7]).readRecords]
    rfl
  have hcut : filterRewrite [1] (walMagic ++ old ++ [7]) (fun e => decide (e.index ≤ 5)) =
      some (walMagic ++ old) := by
    rw [filterRewrite, htorn]
    simp [rewriteLocked, hold]
  have hread := appended_after_rewrite hcut (forall_mem_singleton.2 hsecond)
    (show mapM (appendLocked [1]) [⟨2, 1, .null⟩] = some [new] by simp [hnew])
  rw [flatten_singleton, htorn] at hread
  exact ⟨old, new, _, hold, hnew, by rw [htorn], hcut, hread⟩

end MxKeys.Wal
