/-
# MxKeys.Keys.HalfOpen — how many requests probe a server whose circuit was open.

A window is a sequence of calls of the breaker in which the circuit of a server leaves the open
state at the first call and no outcome is recorded for the server after that.  What `Allow` lets
through in a window is counted here, from any state of the breaker and for any calls, of that server
and of others.

The request that half-opens a circuit is let through and not counted, and a circuit that expires or
is evicted in the window lets everything through.  So up to `halfOpenMax + 1` requests nothing is
turned away (`min_le_admitted`), and the number that is let through stays within `halfOpenMax` only
if no more requests are made (`half_open_probes_iff`).
-/
import MxKeys.Keys.CircuitBreaker

namespace MxKeys.Keys

open MxKeys.Lib
open List Option Assoc

/-! ## Calls -/

/-- A call of one of the methods of the breaker. -/
inductive BreakerCall
  | allow (serverName : Text) (now : Nat)
  | recordSuccess (serverName : Text) (now : Nat)
  /-- `order` is the order in which the map happens to be walked. -/
  | recordFailure (serverName : Text) (now : Nat) (order : List Text)

/-- A call of `Allow` for the server. -/
def BreakerCall.asks (serverName : Text) : BreakerCall → Bool
  | .allow name _ => name = serverName
  | _ => false

/-- An outcome for the server. -/
def BreakerCall.records (serverName : Text) : BreakerCall → Bool
  | .allow _ _ => false
  | .recordSuccess name _ => name = serverName
  | .recordFailure name _ _ => name = serverName

namespace CircuitBreaker

/-- The breaker after a call. -/
def after (cb : CircuitBreaker) : BreakerCall → CircuitBreaker
  | .allow serverName now => (cb.allow serverName now).1
  | .recordSuccess serverName now => cb.recordSuccess serverName now
  | .recordFailure serverName now order => cb.recordFailure serverName now order

/-- The call is one of `Allow` for the server, and returns true. -/
def admits (cb : CircuitBreaker) (serverName : Text) : BreakerCall → Bool
  | .allow name now => name = serverName ∧ (cb.allow name now).2
  | _ => false

/-- How many calls of `Allow` for the server return true. -/
def admitted (cb : CircuitBreaker) (serverName : Text) : List BreakerCall → Nat
  | [] => 0
  | c :: calls => (if cb.admits serverName c then 1 else 0) + (cb.after c).admitted serverName calls

/-- The circuit of a server is open. -/
def IsOpen (cb : CircuitBreaker) (serverName : Text) : Prop :=
  ∃ sc, get serverName cb.servers = some sc ∧ sc.state = .circuitOpen

/-- A window for the server: its circuit leaves the open state at the first call, and no outcome is
recorded for it later. -/
structure Window (cb : CircuitBreaker) (serverName : Text) (first : BreakerCall)
    (rest : List BreakerCall) : Prop where
  opened : cb.IsOpen serverName
  left : ¬(cb.after first).IsOpen serverName
  unrecorded : ∀ c ∈ rest, c.records serverName = false

end CircuitBreaker

/-! ## What a call does to a circuit -/

section Calls

variable {cb : CircuitBreaker} {serverName : Text} {c : BreakerCall} {sc : ServerCircuit}

theorem get_of_evictOldestLocked {order : List Text}
    (h : get serverName (cb.evictOldestLocked order).servers = some sc) :
    get serverName cb.servers = some sc := by
  unfold CircuitBreaker.evictOldestLocked at h
  split_ifs at h
  · exact h
  · rw [CircuitBreaker.delete, get_erase] at h
    split_ifs at h
    exact h

theorem get_of_cleanupLocked (hs : Sorted cb.servers) {now : Nat}
    (h : get serverName (cb.cleanupLocked now).servers = some sc) :
    get serverName cb.servers = some sc := by
  rw [CircuitBreaker.cleanupLocked, get_filterValues _ hs] at h
  obtain ⟨sc', hget, hkeep⟩ := bind_eq_some_iff.1 h
  split_ifs at hkeep
  rw [hget, some.inj hkeep]

/-- A call for another server leaves the circuit as it is or forgets it. -/
theorem get_of_after (hs : Sorted cb.servers) (hasks : c.asks serverName = false)
    (hrecords : c.records serverName = false)
    (h : get serverName (cb.after c).servers = some sc) :
    get serverName cb.servers = some sc := by
  cases c with
  | allow name now =>
    have hne : ¬serverName = name := fun h => by simp [BreakerCall.asks, h] at hasks
    replace h : get serverName (cb.allow name now).1.servers = some sc := h
    obtain heq | heq | ⟨sc', -, heq⟩ := allow_cases cb name now <;> rw [heq] at h
    · exact h
    · rwa [CircuitBreaker.delete, get_erase, if_neg hne] at h
    · rwa [CircuitBreaker.put, get_insert, if_neg hne] at h
  | recordSuccess name now =>
    have hne : ¬serverName = name := fun h => by simp [BreakerCall.records, h] at hrecords
    replace h : get serverName (cb.recordSuccess name now).servers = some sc := h
    unfold CircuitBreaker.recordSuccess at h
    split at h
    · exact h
    · rwa [CircuitBreaker.put, get_insert, if_neg hne] at h
  | recordFailure name now order =>
    have hne : ¬serverName = name := fun h => by simp [BreakerCall.records, h] at hrecords
    replace h : get serverName (cb.recordFailure name now order).servers = some sc := h
    unfold CircuitBreaker.recordFailure at h
    dsimp only at h
    split at h
    · rw [CircuitBreaker.put, get_insert, if_neg hne] at h
      exact get_of_cleanupLocked hs h
    · rw [CircuitBreaker.put, get_insert, if_neg hne] at h
      split_ifs at h
      · exact get_of_cleanupLocked hs (get_of_evictOldestLocked h)
      · exact get_of_cleanupLocked hs h

theorem allow_found (hget : get serverName cb.servers = some sc) (now : Nat) :
    cb.allow serverName now =
      if cb.isExpiredLocked sc now then (cb.delete serverName, true)
      else (cb.put serverName (cb.passes sc now).1, (cb.passes sc now).2) := by
  rw [CircuitBreaker.allow, hget]

theorem passes_closed (h : sc.state = .circuitClosed) (now : Nat) :
    cb.passes sc now = ({ sc with lastTouched := now }, true) := by
  unfold CircuitBreaker.passes
  simp only [h]

theorem passes_open (h : sc.state = .circuitOpen) (now : Nat) :
    cb.passes sc now =
      if cb.resetTimeout < now - sc.lastFailure then
        ({ sc with lastTouched := now, state := .circuitHalfOpen, halfOpenReqs := 0 }, true)
      else ({ sc with lastTouched := now }, false) := by
  unfold CircuitBreaker.passes
  simp only [h]

theorem passes_halfOpen (h : sc.state = .circuitHalfOpen) (now : Nat) :
    cb.passes sc now =
      if sc.halfOpenReqs < cb.halfOpenMax then
        ({ sc with lastTouched := now, halfOpenReqs := sc.halfOpenReqs + 1 }, true)
      else ({ sc with lastTouched := now }, false) := by
  unfold CircuitBreaker.passes
  simp only [h]

theorem recordFailure_put (cb : CircuitBreaker) (serverName : Text) (now : Nat)
    (order : List Text) : ∃ (cb' : CircuitBreaker) (sc : ServerCircuit) (threshold : Nat),
      cb.recordFailure serverName now order = cb'.put serverName (sc.fail threshold now) := by
  unfold CircuitBreaker.recordFailure
  dsimp only
  split
  · exact ⟨_, _, _, rfl⟩
  · exact ⟨_, _, _, rfl⟩

theorem sorted_after (hs : Sorted cb.servers) : Sorted (cb.after c).servers := by
  cases c with
  | allow name now => exact sorted_allow hs name now
  | recordSuccess name now => exact sorted_recordSuccess hs name now
  | recordFailure name now order => exact sorted_recordFailure hs name now order

theorem halfOpenMax_after : (cb.after c).halfOpenMax = cb.halfOpenMax := by
  cases c with
  | allow name now =>
    show (cb.allow name now).1.halfOpenMax = _
    obtain heq | heq | ⟨sc, -, heq⟩ := allow_cases cb name now <;> rw [heq] <;> rfl
  | recordSuccess name now =>
    show (cb.recordSuccess name now).halfOpenMax = _
    unfold CircuitBreaker.recordSuccess
    split <;> rfl
  | recordFailure name now order =>
    show (cb.recordFailure name now order).halfOpenMax = _
    unfold CircuitBreaker.recordFailure CircuitBreaker.evictOldestLocked
    dsimp only
    split
    · rfl
    · split_ifs <;> rfl

end Calls

/-! ## Room for requests -/

section Room

variable {cb : CircuitBreaker} {serverName : Text} {c : BreakerCall} {k : Nat}

/-- The circuit has room for `k` requests: it is not open, and if it is half-open, it has not
counted too many. -/
def Room (cb : CircuitBreaker) (serverName : Text) (k : Nat) : Prop :=
  ∀ sc, get serverName cb.servers = some sc → sc.state ≠ .circuitOpen ∧
    (sc.state = .circuitHalfOpen → sc.halfOpenReqs + k ≤ cb.halfOpenMax)

theorem room_delete : Room (cb.delete serverName) serverName k := by
  intro sc hsc
  rw [CircuitBreaker.delete, get_erase, if_pos rfl] at hsc
  cases hsc

theorem room_put {sc : ServerCircuit} (hopen : sc.state ≠ .circuitOpen)
    (hhalf : sc.state = .circuitHalfOpen → sc.halfOpenReqs + k ≤ cb.halfOpenMax) :
    Room (cb.put serverName sc) serverName k := by
  intro sc' hsc'
  rw [CircuitBreaker.put, get_insert, if_pos rfl] at hsc'
  cases hsc'
  exact ⟨hopen, hhalf⟩

/-- A request takes up room for one, and is let through. -/
theorem Room.allow (h : Room cb serverName (k + 1)) (now : Nat) :
    (cb.allow serverName now).2 = true ∧ Room (cb.allow serverName now).1 serverName k := by
  cases hget : get serverName cb.servers with
  | none =>
    rw [CircuitBreaker.allow, hget]
    refine ⟨rfl, fun sc hsc => ?_⟩
    cases hget.symm.trans hsc
  | some sc =>
    obtain ⟨hopen, hhalf⟩ := h sc hget
    rw [allow_found hget]
    split_ifs with hexpired
    · exact ⟨rfl, room_delete⟩
    · cases hstate : sc.state with
      | circuitOpen => exact absurd hstate hopen
      | circuitClosed =>
        rw [passes_closed hstate]
        exact ⟨rfl, room_put hopen fun h => absurd (hstate.symm.trans h) (by decide)⟩
      | circuitHalfOpen =>
        have hle := hhalf hstate
        rw [passes_halfOpen hstate, if_pos (by omega)]
        refine ⟨rfl, room_put hopen fun _ => ?_⟩
        show sc.halfOpenReqs + 1 + k ≤ cb.halfOpenMax
        omega

theorem Room.after_other (h : Room cb serverName k) (hs : Sorted cb.servers)
    (hasks : c.asks serverName = false) (hrecords : c.records serverName = false) :
    Room (cb.after c) serverName k := by
  intro sc hsc
  rw [halfOpenMax_after]
  exact h sc (get_of_after hs hasks hrecords hsc)

/-- **As long as there is room, nothing is turned away.** -/
theorem min_le_admitted (calls : List BreakerCall) :
    ∀ {cb : CircuitBreaker} {k : Nat}, Sorted cb.servers → Room cb serverName k →
      (∀ c ∈ calls, c.records serverName = false) →
      min (calls.countP (BreakerCall.asks serverName)) k ≤ cb.admitted serverName calls := by
  induction calls with
  | nil => exact fun _ _ _ => min_le_left _ _
  | cons c calls ih =>
    intro cb k hs hroom hrecords
    obtain ⟨hc, hlater⟩ := forall_mem_cons.1 hrecords
    have hs' := sorted_after (c := c) hs
    cases hasks : c.asks serverName with
    | false =>
      rw [countP_cons_of_neg (by simp [hasks])]
      exact (ih hs' (hroom.after_other hs hasks hc) hlater).trans (Nat.le_add_left _ _)
    | true =>
      rw [countP_cons_of_pos hasks]
      cases k with
      | zero => exact Nat.zero_le _
      | succ k =>
        cases c with
        | recordSuccess _ _ | recordFailure _ _ _ => cases hasks
        | allow name now =>
          obtain rfl := of_decide_eq_true hasks
          obtain ⟨hpass, hroom⟩ := hroom.allow now
          have hrest := ih hs' hroom hlater
          have hadmits : cb.admits name (.allow name now) = true := decide_eq_true ⟨rfl, hpass⟩
          rw [CircuitBreaker.admitted, if_pos hadmits]
          omega

theorem admitted_le (calls : List BreakerCall) :
    ∀ cb : CircuitBreaker,
      cb.admitted serverName calls ≤ calls.countP (BreakerCall.asks serverName) := by
  induction calls with
  | nil => exact fun _ => le_refl _
  | cons c calls ih =>
    intro cb
    have hrest := ih (cb.after c)
    rw [CircuitBreaker.admitted, countP_cons]
    have hle : (if cb.admits serverName c then 1 else 0) ≤ if c.asks serverName then 1 else 0 := by
      cases c with
      | allow name now =>
        unfold CircuitBreaker.admits BreakerCall.asks
        by_cases hname : name = serverName <;> simp [hname]
        split_ifs <;> omega
      | _ => exact le_rfl
    omega

end Room

/-! ## Windows -/

section Window

variable {cb : CircuitBreaker} {serverName : Text} {first : BreakerCall}
  {rest : List BreakerCall}

/-- A request that ends the open state is let through and leaves room for `halfOpenMax` others. -/
theorem Room.of_allow {now : Nat} (hopen : cb.IsOpen serverName)
    (hleft : ¬(cb.allow serverName now).1.IsOpen serverName) :
    (cb.allow serverName now).2 = true ∧
      Room (cb.allow serverName now).1 serverName cb.halfOpenMax := by
  obtain ⟨sc, hget, hstate⟩ := hopen
  rw [allow_found hget] at hleft ⊢
  split_ifs at hleft ⊢ with hexpired
  · exact ⟨rfl, room_delete⟩
  · rw [passes_open hstate] at hleft ⊢
    split_ifs at hleft ⊢ with hlate
    · exact ⟨rfl, room_put (by simp) fun _ => (Nat.zero_add cb.halfOpenMax).le⟩
    · -- turned away, and the circuit is still open
      refine absurd ⟨{ sc with lastTouched := now }, ?_, hstate⟩ hleft
      exact (get_insert _ _ _ _).trans (if_pos rfl)

/-- Any other call that ends the open state leaves room for everything. -/
theorem CircuitBreaker.Window.room (h : cb.Window serverName first rest)
    (hs : Sorted cb.servers) (hasks : first.asks serverName = false) (k : Nat) :
    Room (cb.after first) serverName k := by
  obtain ⟨sc, hget, hstate⟩ := h.opened
  cases hrecords : first.records serverName with
  | false =>
    intro sc' hsc'
    have hsame := get_of_after hs hasks hrecords hsc'
    cases hget.symm.trans hsame
    exact absurd ⟨sc, hsc', hstate⟩ h.left
  | true =>
    have hleft := h.left
    cases first with
    | allow name now => cases hrecords
    | recordSuccess name now =>
      obtain rfl := of_decide_eq_true hrecords
      refine absurd ⟨{ sc with lastTouched := now }, ?_, hstate⟩ hleft
      show get name (cb.recordSuccess name now).servers = _
      unfold CircuitBreaker.recordSuccess
      simp only [hget, hstate]
      exact (get_insert _ _ _ _).trans (if_pos rfl)
    | recordFailure name now order =>
      obtain rfl := of_decide_eq_true hrecords
      -- the circuit had expired, and the failure starts a new one
      obtain ⟨cb', sc', threshold, heq⟩ := recordFailure_put cb name now order
      replace hleft : ¬(cb.recordFailure name now order).IsOpen name := hleft
      show Room (cb.recordFailure name now order) name k
      rw [heq] at hleft ⊢
      refine room_put (fun hopen => hleft ⟨_, ?_, hopen⟩) fun hhalf => ?_
      · exact (get_insert _ _ _ _).trans (if_pos rfl)
      · exact absurd hhalf (ServerCircuit.fail_state _ _)

/-- **The requests that are let through in a window stay within `halfOpenMax` exactly when no more
requests are made.** -/
theorem half_open_probes_iff (hs : Assoc.Sorted cb.servers) (h : cb.Window serverName first rest) :
    cb.admitted serverName (first :: rest) ≤ cb.halfOpenMax ↔
      (first :: rest).countP (BreakerCall.asks serverName) ≤ cb.halfOpenMax := by
  refine ⟨fun hle => ?_, (admitted_le _ cb).trans⟩
  cases hasks : first.asks serverName with
  | false =>
    have hrest := min_le_admitted rest (sorted_after hs) (h.room hs hasks (cb.halfOpenMax + 1))
      h.unrecorded
    rw [CircuitBreaker.admitted] at hle
    rw [countP_cons_of_neg (by simp [hasks])]
    omega
  | true =>
    cases first with
    | recordSuccess name now => cases hasks
    | recordFailure name now order => cases hasks
    | allow name now =>
      obtain rfl := of_decide_eq_true hasks
      obtain ⟨hpass, hroom⟩ := Room.of_allow h.opened h.left
      have hrest := min_le_admitted rest (sorted_allow hs name now) hroom h.unrecorded
      have hadmits : cb.admits name (.allow name now) = true := decide_eq_true ⟨rfl, hpass⟩
      rw [CircuitBreaker.admitted, if_pos hadmits] at hle
      rw [countP_cons_of_pos hasks]
      replace hle : 1 + (cb.allow name now).1.admitted name rest ≤ cb.halfOpenMax := hle
      omega

/-- The breaker after five failures of `a` at time 0, with the default of `NewCircuitBreaker`. -/
def trippedBreaker : CircuitBreaker :=
  (List.replicate 5 (.recordFailure "a".toList 0 ["a".toList])).foldl CircuitBreaker.after
    (newCircuitBreaker 5 (60 * second))

/-- A request for `a` after the reset timeout. -/
def lateRequest : BreakerCall := .allow "a".toList (61 * second)

theorem trippedBreaker_servers : trippedBreaker.servers =
    [("a".toList, ⟨.circuitOpen, 5, 0, 0, 0⟩)] := by decide +kernel

theorem trippedBreaker_window (rest : List BreakerCall)
    (h : ∀ c ∈ rest, c.records "a".toList = false) :
    trippedBreaker.Window "a".toList lateRequest rest := by
  have hafter : get "a".toList (trippedBreaker.after lateRequest).servers =
      some ⟨.circuitHalfOpen, 5, 0, 61 * second, 0⟩ := by decide +kernel
  refine ⟨⟨_, by rw [trippedBreaker_servers]; rfl, rfl⟩, ?_, h⟩
  rintro ⟨sc, hget, hstate⟩
  cases hafter.symm.trans hget
  cases hstate

/-- One request after the reset timeout. -/
theorem half_open_probes_one :
    trippedBreaker.Window "a".toList lateRequest [] ∧
      trippedBreaker.admitted "a".toList [lateRequest] ≤ trippedBreaker.halfOpenMax := by
  have hs : Sorted trippedBreaker.servers := by
    rw [trippedBreaker_servers]
    exact pairwise_singleton _ _
  have hwindow := trippedBreaker_window [] (forall_mem_nil _)
  exact ⟨hwindow, (half_open_probes_iff hs hwindow).2 (by decide +kernel)⟩

/-- **Two probes where one is the maximum**: the request that half-opens the circuit passes, and so
does the next, before any outcome is recorded. -/
theorem half_open_one_too_many :
    trippedBreaker.halfOpenMax = 1 ∧ trippedBreaker.Window "a".toList lateRequest [lateRequest] ∧
      trippedBreaker.admitted "a".toList [lateRequest, lateRequest] = 2 := by
  refine ⟨by decide +kernel, trippedBreaker_window _ ?_, by decide +kernel⟩
  exact forall_mem_singleton.2 rfl

end Window

end MxKeys.Keys
