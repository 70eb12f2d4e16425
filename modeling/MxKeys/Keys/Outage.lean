/-
# MxKeys.Keys.Outage — what `GetServerKeys` answers when a server cannot be reached.

The memory cache holds a response that is still valid, the database has nothing, and the fetch
fails.  `GetServerKeys` has a fallback for this: after a failed fetch it looks into the memory cache
once more, and answers with what is there as long as the response is valid.  But an entry that has
outlived its time in the cache was deleted by the same call, before it asked the database.
`outage_answered_iff`: the call answers with the response exactly when it does not need the
fallback.

The call runs among others, which may do anything but put a response for this server into the cache;
the cleanup may sweep the entry.
-/
import MxKeys.Keys.Notary

namespace MxKeys.Keys

open MxKeys.Lib
open MxKeys.Lib.Prog (Steps Plays)
open List Option

/-! ## An outage -/

/-- A run of a call of the notary: its operations with their answers. -/
abbrev CallRun := List ((o : NotaryOp) × o.Answer)

/-- What goes on beside a call for a server: nobody else works on that server, but the cleanup may
sweep its entry of the cache when its time is over. -/
def Others (serverName : Text) (s s' : NotaryState) : Prop :=
  Assoc.get serverName s'.cache = Assoc.get serverName s.cache ∨
    Assoc.get serverName s'.cache = none ∧
      ∃ e, Assoc.get serverName s.cache = some e ∧ e.validUntil < s'.clock

/-- The response of the entry is valid at every time that is read; the database has nothing for the
server or fails; no other call has started a fetch; and the fetch fails. -/
def CachedResponse.endures (e : CachedResponse) : (o : NotaryOp) → o.Answer → Bool
  | .net .now, (now : Nat) => (now : Int) < ofMilli e.response.validUntilTS
  | .databaseGet _, (.ok (some _) : Except Unit (Option ServerKeysResponse)) => false
  | .flightJoin _, ((leads, _) : Bool × Nat) => leads
  | .flightFinish _ (.ok _), _ => false
  | _, _ => true

/-- A run during an outage. -/
def Outage (e : CachedResponse) (run : CallRun) : Prop := ∀ x ∈ run, e.endures x.1 x.2 = true

theorem Outage.current {e : CachedResponse} {run : CallRun} {now : Nat} (h : Outage e run)
    (hmem : (⟨.net .now, now⟩ : (o : NotaryOp) × o.Answer) ∈ run) :
    (now : Int) < ofMilli e.response.validUntilTS := of_decide_eq_true (h _ hmem)

/-- The call goes on, the entry is there when it is looked up, and its time in the cache is not over
at the time that was read before. -/
def InTime (serverName : Text) (e : CachedResponse) (run : CallRun) : Prop :=
  ∃ (now : Nat) (rest : CallRun), run = ⟨.net .ctxErr, false⟩ :: ⟨.net .now, now⟩ ::
      ⟨.cacheGet serverName, (some e : Option CachedResponse)⟩ :: rest ∧
    (now : Int) < e.validUntil

/-! ## Without an entry -/

section Calls

variable {scheme : Scheme} {n : Node scheme} {jsonb : Json → Json} {serverName : Text}
  {s s' : NotaryState} {run : CallRun} {result : Except FetchError ServerKeysResponse}

/-- There is no entry for the server. -/
def Gone (serverName : Text) (s : NotaryState) : Prop := Assoc.get serverName s.cache = none

theorem gone_others (h : Others serverName s s') (hs : Gone serverName s) : Gone serverName s' := by
  rcases h with h | h
  · exact h.trans hs
  · exact h.1

/-- The operations that a failed fetch consists of; they leave the cache alone. -/
def NotaryOp.leavesCache : NotaryOp → Bool
  | .net _ | .databaseGet _ | .flightJoin _ | .flightFinish _ _ => true
  | _ => false

theorem cache_handle {o : NotaryOp} {proposed answer : o.Answer} (ho : o.leavesCache = true)
    (h : s.handle jsonb o proposed = some (answer, s')) : s'.cache = s.cache := by
  cases o with
  | net _ | databaseGet _ | flightFinish _ _ =>
    rw [← (Prod.mk.inj (some.inj h)).2]
  | flightJoin name =>
    simp only [NotaryState.handle] at h
    split at h <;> rw [← (Prod.mk.inj (some.inj h)).2]
  | _ => cases ho

theorem gone_plays (hrun : ∀ e ∈ run, e.1.leavesCache = true)
    (h : Plays (NotaryState.handle jsonb) (Others serverName) s run s') (hs : Gone serverName s) :
    Gone serverName s' := by
  refine Plays.keep (I := Gone serverName) gone_others h
    (fun e he s s' proposed hhandle hs => ?_) hs
  rw [Gone, cache_handle (hrun e he) hhandle]
  exact hs

theorem leavesCache_of_lift {α : Type} {p : Net α} {q : Proc α} (h : Steps p.lift run q) :
    ∀ e ∈ run, e.1.leavesCache = true := by
  induction p generalizing run with
  | ret a =>
    cases h
    exact forall_mem_nil _
  | ask o next ih =>
    cases h with
    | refl => exact forall_mem_nil _
    | answer answer h => exact forall_mem_cons.2 ⟨rfl, ih answer h⟩

variable {err : FetchError} {now : Nat}

theorem leavesCache_of_fetchAndStore
    (h : Steps (n.fetchAndStore serverName) run (.ret (.error err))) :
    ∀ e ∈ run, e.1.leavesCache = true := by
  obtain ⟨fetched, first, rest, rfl, hfirst, hrest⟩ := h.of_bind
  cases fetched with
  | error err =>
    cases hrest
    rw [append_nil]
    exact leavesCache_of_lift hfirst
  | ok keys =>
    -- after a fetch that worked, the keys are returned whatever the database says
    obtain ⟨-, -, rest, -, -, hrest⟩ := hrest.of_bind
    obtain ⟨-, -, rest, -, -, hrest⟩ := hrest.of_bind
    obtain ⟨-, -, rest, -, -, hrest⟩ := hrest.of_bind
    cases hrest

variable {e : CachedResponse}

/-- In an outage the flight of the call ends in an error. -/
theorem error_of_fetchOnce (houtage : Outage e run)
    (h : Steps (n.fetchOnce serverName) run (.ret result)) :
    (∃ err, result = .error err) ∧ ∀ e ∈ run, e.1.leavesCache = true := by
  cases h with
  | answer joined h =>
    obtain ⟨leads, flight⟩ := joined
    cases leads with
    | false => exact absurd (houtage _ mem_cons_self) Bool.false_ne_true
    | true =>
      replace h : Steps (do
        let result ← n.fetchAndStore serverName
        flightFinish flight result
        pure result) _ (.ret result) := h
      obtain ⟨fetched, first, rest, rfl, hfirst, hrest⟩ := h.of_bind
      cases hrest with
      | answer answer hrest =>
        cases hrest
        cases result with
        | ok r =>
          refine absurd (houtage ⟨.flightFinish flight (.ok r), answer⟩ ?_) Bool.false_ne_true
          exact mem_cons_of_mem _ (mem_append_right _ mem_cons_self)
        | error err =>
          refine ⟨⟨err, rfl⟩, forall_mem_cons.2 ⟨rfl, forall_mem_append.2 ⟨?_, ?_⟩⟩⟩
          · exact leavesCache_of_fetchAndStore hfirst
          · exact forall_mem_singleton.2 rfl

/-- Without an entry, nothing stands in for a failed fetch. -/
theorem error_of_staleEntry (h : Steps (staleEntry serverName err) run (.ret result))
    (hplays : Plays (NotaryState.handle jsonb) (Others serverName) s run s')
    (hs : Gone serverName s) : ∃ e, result = .error e := by
  cases h with
  | answer entry h =>
    cases hplays with
    | cons hothers proposed hhandle hplays =>
      have hgone := gone_others hothers hs
      cases hhandle
      rw [show Assoc.get serverName _ = none from hgone] at h
      cases h
      exact ⟨err, rfl⟩

/-- Without an entry, an outage ends in an error. -/
theorem error_of_getUncached (houtage : Outage e run)
    (h : Steps (n.getUncached serverName now) run (.ret result))
    (hplays : Plays (NotaryState.handle jsonb) (Others serverName) s run s')
    (hs : Gone serverName s) : ∃ e, result = .error e := by
  have hfetch : ∀ {s : NotaryState} {run : CallRun}, Outage e run →
      Steps (Node.getUncached.fetch n serverName) run (.ret result) →
      Plays (NotaryState.handle jsonb) (Others serverName) s run s' → Gone serverName s →
      ∃ e, result = .error e := by
    intro s run houtage h hplays hs
    obtain ⟨fetched, first, rest, rfl, hfirst, hrest⟩ := h.of_bind
    obtain ⟨m, hplaysFirst, hplaysRest⟩ := hplays.of_append
    obtain ⟨⟨err, rfl⟩, hleaves⟩ := error_of_fetchOnce
      (fun x hx => houtage x (mem_append_left _ hx)) hfirst
    exact error_of_staleEntry hrest hplaysRest (gone_plays hleaves hplaysFirst hs)
  cases h with
  | answer stored h =>
    cases hplays with
    | cons hothers proposed hhandle hplays =>
      have hgone := (congrArg (Assoc.get serverName) (cache_handle rfl hhandle)).trans
        (gone_others hothers hs)
      have hrest := (forall_mem_cons.1 houtage).2
      cases stored with
      | error err => exact hfetch hrest h hplays hgone
      | ok stored =>
        cases stored with
        | none => exact hfetch hrest h hplays hgone
        | some stored => exact absurd (houtage _ mem_cons_self) Bool.false_ne_true

/-! ## With an entry -/

theorem get_others (h : Others serverName s s')
    (hs : Assoc.get serverName s.cache = some e ∨ Gone serverName s) :
    Assoc.get serverName s'.cache = some e ∨ Gone serverName s' := by
  rcases h with h | h
  · rw [Gone, h]
    exact hs
  · exact .inr h.1

/-- An entry whose time is over is deleted. -/
theorem gone_cacheEvict {answer : Unit} {proposed : Unit} (hinvalid : cacheEntryValid e now = false)
    (hs : Assoc.get serverName s.cache = some e ∨ Gone serverName s)
    (h : s.handle jsonb (.cacheEvict serverName e now) proposed = some (answer, s')) :
    Gone serverName s' := by
  simp only [NotaryState.handle] at h
  rcases hs with hs | hs
  · rw [hs] at h
    dsimp only at h
    rw [if_pos ⟨rfl, by rw [hinvalid]; exact Bool.false_ne_true⟩] at h
    rw [← (Prod.mk.inj (some.inj h)).2, Gone, Assoc.get_erase, if_pos rfl]
  · rw [show Assoc.get serverName s.cache = none from hs] at h
    rw [← (Prod.mk.inj (some.inj h)).2]
    exact hs

theorem cacheEntryValid_iff (h : (now : Int) < ofMilli e.response.validUntilTS) :
    cacheEntryValid e now = true ↔ (now : Int) < e.validUntil := by
  have hmilli : unixMilli now < e.response.validUntilTS := Int.ediv_lt_of_lt_mul (by decide) h
  rw [cacheEntryValid, decide_eq_true_iff]
  exact and_iff_left hmilli

/-- An entry whose time is over does not stand in for a failed fetch. -/
theorem error_of_expired (houtage : Outage e run) (hinvalid : cacheEntryValid e now = false)
    (h : Steps (do cacheEvict serverName e now; n.getUncached serverName now) run (.ret result))
    (hplays : Plays (NotaryState.handle jsonb) (Others serverName) s run s')
    (hs : Assoc.get serverName s.cache = some e ∨ Gone serverName s) :
    ∃ err, result = .error err := by
  cases h with
  | answer answer h =>
    cases hplays with
    | cons hothers proposed hhandle hplays =>
      have hgone := gone_cacheEvict hinvalid (get_others hothers hs) hhandle
      exact error_of_getUncached (fun x hx => houtage x (mem_cons_of_mem _ hx)) h hplays hgone

/-- **In an outage `GetServerKeys` answers with the response in the memory cache exactly when its
time there is not over.** -/
theorem outage_answered_iff (hcache : Assoc.get serverName s.cache = some e)
    (h : Steps (n.getServerKeys serverName) run (.ret result))
    (hplays : Plays (NotaryState.handle jsonb) (Others serverName) s run s')
    (houtage : Outage e run) :
    (result = .ok e.response ∨ result = .ok (cloneServerKeysResponse e.response)) ↔
      InTime serverName e run := by
  have herror : (∃ err, result = .error err) →
      ¬(result = .ok e.response ∨ result = .ok (cloneServerKeysResponse e.response)) := by
    rintro ⟨err, rfl⟩ (h | h) <;> cases h
  cases h with
  | answer canceled h =>
  cases hplays with
  | cons hothers _ hhandle hplays =>
  have hleft := get_others hothers (.inl hcache)
  rw [Gone, ← cache_handle rfl hhandle] at hleft
  cases canceled with
  | true =>
    cases h
    refine iff_of_false (herror ⟨_, rfl⟩) ?_
    rintro ⟨now, rest, heq, -⟩
    cases heq
  | false =>
    cases h with
    | answer now h =>
    cases hplays with
    | cons hothers _ hhandle hplays =>
    have hleft := get_others hothers hleft
    rw [Gone, ← cache_handle rfl hhandle] at hleft
    have hcurrent := houtage.current (mem_cons_of_mem _ mem_cons_self)
    cases h with
    | answer entry h =>
    cases hplays with
    | cons hothers _ hhandle hplays =>
    have hleft := get_others hothers hleft
    obtain ⟨hentry, rfl⟩ := Prod.mk.inj (some.inj hhandle)
    have hrest : Outage e _ := fun x hx => houtage x
      (mem_cons_of_mem _ (mem_cons_of_mem _ (mem_cons_of_mem _ hx)))
    rcases hleft with hleft | hleft
    · obtain rfl := hentry.symm.trans hleft
      replace h : Steps (if cacheEntryValid e now then
          pure (.ok (cloneServerKeysResponse e.response))
        else do
          cacheEvict serverName e now
          n.getUncached serverName now) _ (.ret result) := h
      split_ifs at h with hvalid
      · cases h
        exact iff_of_true (.inr rfl) ⟨now, [], rfl, (cacheEntryValid_iff hcurrent).1 hvalid⟩
      · have hinvalid := Bool.eq_false_iff.2 hvalid
        refine iff_of_false (herror (error_of_expired hrest hinvalid h hplays (.inl hleft))) ?_
        rintro ⟨now', rest, heq, hlt⟩
        cases heq
        exact hvalid ((cacheEntryValid_iff hcurrent).2 hlt)
    · obtain rfl := hentry.symm.trans hleft
      refine iff_of_false (herror (error_of_getUncached hrest h hplays hleft)) ?_
      rintro ⟨now', rest, heq, -⟩
      cases heq

end Calls

/-! ## Two entries -/

/-- The response of `s`, kept in the cache until the given time. -/
def cachedEntry (validUntil : Int) : CachedResponse :=
  ⟨0, sampleResponse [("b".toList, 'B')], validUntil⟩

/-- At time 2 the cache holds the response of `s`. -/
def cachedState (validUntil : Int) : NotaryState :=
  ⟨2, [("s".toList, cachedEntry validUntil)], 1, [], [], []⟩

/-- The beginning of a call for `s`. -/
def lookupRun (validUntil : Int) : CallRun :=
  [⟨.net .ctxErr, false⟩, ⟨.net .now, (2 : Nat)⟩,
    ⟨.cacheGet "s".toList, (some (cachedEntry validUntil) : Option CachedResponse)⟩]

/-- An entry that is in time. -/
theorem outage_answered_cached :
    Steps (sampleNode.getServerKeys "s".toList) (lookupRun 5)
        (.ret (.ok (cloneServerKeysResponse (cachedEntry 5).response))) ∧
      Plays (NotaryState.handle id) (Others "s".toList) (cachedState 5) (lookupRun 5)
        (cachedState 5) ∧
      Outage (cachedEntry 5) (lookupRun 5) ∧
      InTime "s".toList (cachedEntry 5) (lookupRun 5) := by
  have hsteps : Steps (sampleNode.getServerKeys "s".toList) (lookupRun 5)
      (.ret (.ok (cloneServerKeysResponse (cachedEntry 5).response))) :=
    .answer _ (.answer _ (.answer _ (.refl _)))
  have hplays : Plays (NotaryState.handle id) (Others "s".toList) (cachedState 5) (lookupRun 5)
      (cachedState 5) :=
    .cons (.inl rfl) false rfl (.cons (.inl rfl) (2 : Nat) rfl (.cons (.inl rfl) none rfl (.nil _)))
  have houtage : Outage (cachedEntry 5) (lookupRun 5) := List.all_eq_true.1 (by decide +kernel)
  exact ⟨hsteps, hplays, houtage, (outage_answered_iff rfl hsteps hplays houtage).1 (.inr rfl)⟩

/-- The call goes on after an entry that is over: the database has nothing, the circuit of `s` is
open, and the cache is empty. -/
def expiredRun : CallRun :=
  lookupRun 1 ++ [⟨.cacheEvict "s".toList (cachedEntry 1) 2, ()⟩,
    ⟨.databaseGet "s".toList, (.ok none : Except Unit (Option ServerKeysResponse))⟩,
    ⟨.flightJoin "s".toList, ((true, 0) : Bool × Nat)⟩, ⟨.net .ctxErr, false⟩,
    ⟨.net (.allow "s".toList), false⟩, ⟨.flightFinish 0 (.error .circuitOpen), ()⟩,
    ⟨.cacheGet "s".toList, (none : Option CachedResponse)⟩]

/-- **The response is valid until 10 ms, its time in the cache was over at 1 ns, and at 2 ns the
call ends in an error.** -/
theorem outage_expired_error :
    Assoc.get "s".toList (cachedState 1).cache = some (cachedEntry 1) ∧
      Steps (sampleNode.getServerKeys "s".toList) expiredRun (.ret (.error .circuitOpen)) ∧
      (∃ s', Plays (NotaryState.handle id) (Others "s".toList) (cachedState 1) expiredRun s') ∧
      Outage (cachedEntry 1) expiredRun := by
  refine ⟨rfl, ?_, ?_, ?_⟩
  · exact .answer _ (.answer _ (.answer _ (.answer _ (.answer _ (.answer _ (.answer _ (.answer _
      (.answer _ (.answer _ (.refl _))))))))))
  · exact ⟨_, .cons (.inl rfl) false rfl (.cons (.inl rfl) (2 : Nat) rfl (.cons (.inl rfl) none rfl
      (.cons (.inl rfl) () rfl (.cons (.inl rfl) (.ok none) rfl (.cons (.inl rfl) (true, 0) rfl
      (.cons (.inl rfl) false rfl (.cons (.inl rfl) false rfl (.cons (.inl rfl) () rfl
      (.cons (.inl rfl) none rfl (.nil _))))))))))⟩
  · exact List.all_eq_true.1 (by decide +kernel)

end MxKeys.Keys
