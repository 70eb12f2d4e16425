/-
# MxKeys.Keys.CircuitBreaker — the circuit breaker in front of the fetcher.

The breaker keeps one circuit for each server that has failed recently.  Too many failures open it;
after `resetTimeout` the next request half-opens it and passes, one more request may pass, and the
first outcome that is recorded closes or opens it again.  `FetchServerKeys` asks the breaker, waits
for a slot of the semaphore, fetches, and records the outcome.

The system here is the breaker with any number of calls of `FetchServerKeys`, each moving from one
of its steps to the next.  A half-open circuit that turns requests away is waiting for an outcome,
so some admitted call has to be on its way to record one; only the exit at the semaphore can break
this.
-/
import MxKeys.Keys.Response
import MxKeys.Lib.Run

namespace MxKeys.Keys

open MxKeys.Lib
open List Option Assoc

/-! ## The breaker -/

/-- `CircuitState`. -/
inductive CircuitState
  | circuitClosed
  | circuitOpen
  | circuitHalfOpen
  deriving DecidableEq

/-- Times and durations in nanoseconds. -/
structure ServerCircuit where
  state : CircuitState
  failures : Nat
  lastFailure : Nat
  lastTouched : Nat
  halfOpenReqs : Nat
  deriving DecidableEq

/-- `CircuitBreaker`, with its limits. -/
structure CircuitBreaker where
  failureThreshold : Nat
  resetTimeout : Nat
  halfOpenMax : Nat
  serverTTL : Nat
  maxTracked : Nat
  servers : Map ServerCircuit

def second : Nat := 1000000000

/-- `NewCircuitBreaker`. -/
def newCircuitBreaker (failureThreshold resetTimeout : Int) : CircuitBreaker :=
  let failureThreshold := if failureThreshold ≤ 0 then 5 else failureThreshold.toNat
  let resetTimeout := if resetTimeout ≤ 0 then 60 * second else resetTimeout.toNat
  ⟨failureThreshold, resetTimeout, 1, max (15 * 60 * second) (resetTimeout * 10), 4096, []⟩

/-- `isExpiredLocked`. -/
def CircuitBreaker.isExpiredLocked (cb : CircuitBreaker) (sc : ServerCircuit) (now : Nat) : Bool :=
  decide (cb.serverTTL < now - sc.lastTouched)

/-- `delete(cb.servers, serverName)`. -/
def CircuitBreaker.delete (cb : CircuitBreaker) (serverName : Text) : CircuitBreaker :=
  { cb with servers := erase serverName cb.servers }

/-- Store what was written through the pointer to a circuit. -/
def CircuitBreaker.put (cb : CircuitBreaker) (serverName : Text) (sc : ServerCircuit) :
    CircuitBreaker :=
  { cb with servers := insert serverName sc cb.servers }

/-- The switch of `Allow`: the circuit of a server that is asked for, and the answer. -/
def CircuitBreaker.passes (cb : CircuitBreaker) (sc : ServerCircuit) (now : Nat) :
    ServerCircuit × Bool :=
  let sc := { sc with lastTouched := now }
  match sc.state with
  | .circuitClosed => (sc, true)
  | .circuitOpen =>
    if cb.resetTimeout < now - sc.lastFailure then
      ({ sc with state := .circuitHalfOpen, halfOpenReqs := 0 }, true)
    else (sc, false)
  | .circuitHalfOpen =>
    -- the request that half-opened the circuit is not counted
    if sc.halfOpenReqs < cb.halfOpenMax then
      ({ sc with halfOpenReqs := sc.halfOpenReqs + 1 }, true)
    else (sc, false)

/-- Whether a request to the server is allowed. -/
def CircuitBreaker.allow (cb : CircuitBreaker) (serverName : Text) (now : Nat) :
    CircuitBreaker × Bool :=
  match Assoc.get serverName cb.servers with
  | none => (cb, true)
  | some sc =>
    if cb.isExpiredLocked sc now then (cb.delete serverName, true)
    else
      let (sc, ok) := cb.passes sc now
      (cb.put serverName sc, ok)

/-- `RecordSuccess`. -/
def CircuitBreaker.recordSuccess (cb : CircuitBreaker) (serverName : Text) (now : Nat) :
    CircuitBreaker :=
  match Assoc.get serverName cb.servers with
  | none => cb
  | some sc =>
    let sc := { sc with lastTouched := now }
    cb.put serverName <| match sc.state with
      | .circuitHalfOpen => { sc with state := .circuitClosed, failures := 0, halfOpenReqs := 0 }
      | .circuitClosed => { sc with failures := 0 }
      | .circuitOpen => sc

/-- `cleanupLocked`: forgets the expired servers. -/
def CircuitBreaker.cleanupLocked (cb : CircuitBreaker) (now : Nat) : CircuitBreaker :=
  { cb with
    servers := filterValues
      (fun sc => if cb.isExpiredLocked sc now then none else some sc) cb.servers }

/-- The loop of `evictOldestLocked` over the names in `order`, the order in which the map happens to
be walked. -/
def CircuitBreaker.oldest (cb : CircuitBreaker) (order : List Text) : Text × Nat :=
  order.foldl (fun oldest serverName =>
    match Assoc.get serverName cb.servers with
    | none => oldest
    | some sc =>
      if oldest.1 = [] ∨ sc.lastTouched < oldest.2 then (serverName, sc.lastTouched) else oldest)
    ([], 0)

/-- `evictOldestLocked`: the empty name stands for none. -/
def CircuitBreaker.evictOldestLocked (cb : CircuitBreaker) (order : List Text) :
    CircuitBreaker :=
  if (cb.oldest order).1 = [] then cb else cb.delete (cb.oldest order).1

/-- The circuit after one more failure. -/
def ServerCircuit.fail (sc : ServerCircuit) (failureThreshold now : Nat) : ServerCircuit :=
  let sc := { sc with failures := sc.failures + 1, lastFailure := now, lastTouched := now }
  match sc.state with
  | .circuitClosed =>
    if failureThreshold ≤ sc.failures then { sc with state := .circuitOpen } else sc
  | .circuitHalfOpen => { sc with state := .circuitOpen }
  | .circuitOpen => sc

/-- `RecordFailure`. -/
def CircuitBreaker.recordFailure (cb : CircuitBreaker) (serverName : Text) (now : Nat)
    (order : List Text) : CircuitBreaker :=
  let cb := cb.cleanupLocked now
  match Assoc.get serverName cb.servers with
  | some sc => cb.put serverName (sc.fail cb.failureThreshold now)
  | none =>
    let cb := if cb.maxTracked ≤ cb.servers.length then cb.evictOldestLocked order else cb
    cb.put serverName
      (ServerCircuit.fail ⟨.circuitClosed, 0, 0, now, 0⟩ cb.failureThreshold now)

/-! ## The calls -/

/-- How a call of `FetchServerKeys` returned. -/
inductive FetchOutcome
  | contextCanceled
  | circuitOpen
  | concurrencyLimit
  | fetched
  | allSourcesFailed
  deriving DecidableEq

/-- How far a `FetchServerKeys` has come. -/
inductive FetchPhase
  | started
  /-- `Allow` has returned true; waiting for the semaphore. -/
  | admitted
  /-- Holds a slot of the semaphore: direct fetch with retries, then the fallback notaries. -/
  | fetching
  | returned (outcome : FetchOutcome)
  deriving DecidableEq

/-- Between `Allow` and the recorded outcome. -/
def FetchPhase.admittedOn : FetchPhase → Bool
  | .admitted | .fetching => true
  | _ => false

/-- A call of `FetchServerKeys`. -/
structure FetchCall where
  serverName : Text
  phase : FetchPhase
  deriving DecidableEq

/-- The calls of `FetchServerKeys` and the breaker they share. -/
structure Fetching where
  clock : Nat
  circuitBreaker : CircuitBreaker
  /-- Every call so far. -/
  calls : List FetchCall

/-- Time passes, or a call takes its next step. -/
inductive FetchAction
  /-- Time passes. -/
  | tick (d : Nat)
  | start (serverName : Text)
  /-- `ctx.Err() != nil` on entry. -/
  | canceled (i : Nat)
  | allow (i : Nat)
  /-- `Acquire` returns an error: the context ended while waiting. -/
  | acquireFail (i : Nat)
  | acquire (i : Nat)
  /-- The direct fetch or a fallback notary has answered. -/
  | succeed (i : Nat)
  | fail (i : Nat) (order : List Text)
  /-- `Stats`, from the admin routes. -/
  | stats

/-- `maxConcurrentFetches`. -/
def maxConcurrentFetches : Nat := 50

/-- The slots of the semaphore in use. -/
def Fetching.inUse (s : Fetching) : Nat :=
  (s.calls.filter fun c => decide (c.phase = .fetching)).length

def Fetching.setPhase (s : Fetching) (i : Nat) (c : FetchCall) (phase : FetchPhase) : Fetching :=
  { s with calls := s.calls.set i { c with phase := phase } }

def Fetching.setBreaker (s : Fetching) (cb : CircuitBreaker) : Fetching :=
  { s with circuitBreaker := cb }

/-- `Allow`, with what call `i` does next. -/
def Fetching.admit (s : Fetching) (i : Nat) (c : FetchCall) : Fetching :=
  (s.setBreaker (s.circuitBreaker.allow c.serverName s.clock).1).setPhase i c
    (if (s.circuitBreaker.allow c.serverName s.clock).2 then .admitted else .returned .circuitOpen)

/-- One step of a call, of the clock or of the admin routes. -/
def Fetching.step (s : Fetching) : FetchAction → Option Fetching
  | .tick d => some { s with clock := s.clock + d }
  | .start serverName => some { s with calls := s.calls ++ [⟨serverName, .started⟩] }
  | .canceled i => do
    let c ← s.calls[i]?
    guard (c.phase = .started)
    return s.setPhase i c (.returned .contextCanceled)
  | .allow i => do
    let c ← s.calls[i]?
    guard (c.phase = .started)
    return s.admit i c
  | .acquireFail i => do
    let c ← s.calls[i]?
    guard (c.phase = .admitted)
    return s.setPhase i c (.returned .concurrencyLimit)
  | .acquire i => do
    let c ← s.calls[i]?
    guard (c.phase = .admitted ∧ s.inUse < maxConcurrentFetches)
    return s.setPhase i c .fetching
  | .succeed i => do
    let c ← s.calls[i]?
    guard (c.phase = .fetching)
    return (s.setBreaker (s.circuitBreaker.recordSuccess c.serverName s.clock)).setPhase i c
      (.returned .fetched)
  | .fail i order => do
    let c ← s.calls[i]?
    guard (c.phase = .fetching ∧
      order.isPerm ((s.circuitBreaker.cleanupLocked s.clock).servers.map Prod.fst))
    return (s.setBreaker (s.circuitBreaker.recordFailure c.serverName s.clock order)).setPhase i c
      (.returned .allSourcesFailed)
  | .stats => some (s.setBreaker (s.circuitBreaker.cleanupLocked s.clock))

/-- A fetcher that has just been made. -/
def newFetching (cb : CircuitBreaker) : Fetching := ⟨0, cb, []⟩

/-! ## Circuits that turn requests away -/

/-- The circuit of the server is half-open and has let through all it will. -/
def CircuitBreaker.Exhausted (cb : CircuitBreaker) (serverName : Text) : Prop :=
  ∃ sc, Assoc.get serverName cb.servers = some sc ∧ sc.state = .circuitHalfOpen ∧
    cb.halfOpenMax ≤ sc.halfOpenReqs

section Breaker

variable {cb : CircuitBreaker} {serverName other : Text} {now : Nat}

theorem exhausted_put {sc : ServerCircuit} : (cb.put serverName sc).Exhausted other ↔
    if other = serverName then sc.state = .circuitHalfOpen ∧ cb.halfOpenMax ≤ sc.halfOpenReqs
    else cb.Exhausted other := by
  unfold CircuitBreaker.Exhausted CircuitBreaker.put
  simp only [get_insert]
  split_ifs <;> simp

theorem exhausted_of_delete (h : (cb.delete serverName).Exhausted other) : cb.Exhausted other := by
  obtain ⟨sc, hget, hstate⟩ := h
  rw [CircuitBreaker.delete, get_erase] at hget
  split_ifs at hget
  exact ⟨sc, hget, hstate⟩

theorem exhausted_of_cleanupLocked (hs : Sorted cb.servers)
    (h : (cb.cleanupLocked now).Exhausted other) : cb.Exhausted other := by
  obtain ⟨sc, hget, hstate⟩ := h
  rw [CircuitBreaker.cleanupLocked, get_filterValues _ hs] at hget
  obtain ⟨sc', hsc', hkeep⟩ := bind_eq_some_iff.1 hget
  split_ifs at hkeep
  obtain rfl := some.inj hkeep
  exact ⟨sc', hsc', hstate⟩

variable {order : List Text}

theorem exhausted_of_evictOldestLocked (h : (cb.evictOldestLocked order).Exhausted other) :
    cb.Exhausted other := by
  unfold CircuitBreaker.evictOldestLocked at h
  split_ifs at h
  · exact h
  · exact exhausted_of_delete h

/-- **What `Allow` does**: nothing, forget an expired circuit, or move the circuit on. -/
theorem allow_cases (cb : CircuitBreaker) (serverName : Text) (now : Nat) :
    cb.allow serverName now = (cb, true) ∨ cb.allow serverName now = (cb.delete serverName, true) ∨
      ∃ sc, Assoc.get serverName cb.servers = some sc ∧ cb.allow serverName now =
        (cb.put serverName (cb.passes sc now).1, (cb.passes sc now).2) := by
  unfold CircuitBreaker.allow
  cases hget : Assoc.get serverName cb.servers with
  | none => exact .inl rfl
  | some sc =>
    by_cases hexp : cb.isExpiredLocked sc now = true
    · refine .inr (.inl ?_)
      dsimp only
      rw [if_pos hexp]
    · refine .inr (.inr ⟨sc, rfl, ?_⟩)
      dsimp only
      rw [if_neg hexp]

/-- `Allow` exhausts a circuit only by letting a request through. -/
theorem exhausted_of_allow (h : (cb.allow serverName now).1.Exhausted other) :
    other = serverName ∧ (cb.allow serverName now).2 = true ∨ cb.Exhausted other := by
  obtain heq | heq | ⟨sc, hget, heq⟩ := allow_cases cb serverName now
  · rw [heq] at h
    exact .inr h
  · rw [heq] at h
    exact .inr (exhausted_of_delete h)
  · rw [heq] at h ⊢
    rw [exhausted_put] at h
    split_ifs at h with hname
    · cases hpass : (cb.passes sc now).2 with
      | true => exact .inl ⟨hname, rfl⟩
      | false =>
        -- turned away: the circuit is as before
        refine .inr ⟨sc, hname ▸ hget, ?_⟩
        unfold CircuitBreaker.passes at h hpass
        cases hstate : sc.state with
        | circuitClosed => simp [hstate] at hpass
        | circuitOpen =>
          simp only [hstate] at h hpass
          split_ifs at h hpass
          cases h.1
        | circuitHalfOpen =>
          simp only [hstate] at h hpass
          split_ifs at h hpass
          exact ⟨rfl, h.2⟩
    · exact .inr h

/-- A recorded success leaves no exhausted circuit of its server. -/
theorem exhausted_of_recordSuccess (h : (cb.recordSuccess serverName now).Exhausted other) :
    other ≠ serverName ∧ cb.Exhausted other := by
  unfold CircuitBreaker.recordSuccess at h
  cases hget : Assoc.get serverName cb.servers with
  | none =>
    rw [hget] at h
    refine ⟨?_, h⟩
    rintro rfl
    obtain ⟨sc, hsc, -⟩ := h
    rw [hget] at hsc
    cases hsc
  | some sc =>
    rw [hget] at h
    rw [exhausted_put] at h
    split_ifs at h with hname
    · cases hstate : sc.state <;> simp [hstate] at h
    · exact ⟨hname, h⟩

theorem ServerCircuit.fail_state (sc : ServerCircuit) (threshold : Nat) :
    (sc.fail threshold now).state ≠ .circuitHalfOpen := by
  unfold ServerCircuit.fail
  cases hstate : sc.state
  · simp only
    split_ifs <;> simp
  · simp
  · simp

/-- Nor does a recorded failure. -/
theorem exhausted_of_recordFailure (hs : Sorted cb.servers)
    (h : (cb.recordFailure serverName now order).Exhausted other) :
    other ≠ serverName ∧ cb.Exhausted other := by
  unfold CircuitBreaker.recordFailure at h
  dsimp only at h
  split at h
  · rw [exhausted_put] at h
    split_ifs at h with hname
    · exact absurd h.1 (ServerCircuit.fail_state _ _)
    · exact ⟨hname, exhausted_of_cleanupLocked hs h⟩
  · rw [exhausted_put] at h
    split_ifs at h with hname hfull
    · exact absurd h.1 (ServerCircuit.fail_state _ _)
    · exact absurd h.1 (ServerCircuit.fail_state _ _)
    · exact ⟨hname, exhausted_of_cleanupLocked hs (exhausted_of_evictOldestLocked h)⟩
    · exact ⟨hname, exhausted_of_cleanupLocked hs h⟩

/-- **When `Allow` turns a request away**: the circuit is open and its last failure recent, or it is
half-open and exhausted. -/
theorem allow_eq_false (h : (cb.allow serverName now).2 = false) :
    (∃ sc, Assoc.get serverName cb.servers = some sc ∧ now - sc.lastFailure ≤ cb.resetTimeout) ∨
      cb.Exhausted serverName := by
  obtain heq | heq | ⟨sc, hget, heq⟩ := allow_cases cb serverName now <;> rw [heq] at h
  · cases h
  · cases h
  · replace h : (cb.passes sc now).2 = false := h
    unfold CircuitBreaker.passes at h
    cases hstate : sc.state with
    | circuitClosed => simp [hstate] at h
    | circuitOpen =>
      simp only [hstate] at h
      split_ifs at h with hlate
      exact .inl ⟨sc, hget, not_lt.1 hlate⟩
    | circuitHalfOpen =>
      simp only [hstate] at h
      split_ifs at h with hfree
      exact .inr ⟨sc, hget, hstate, not_lt.1 hfree⟩

end Breaker

/-! ## Steps -/

section Steps

variable {s s' : Fetching} {i : Nat}

/-- Some call for the server is between `Allow` and its outcome. -/
def Fetching.Awaited (s : Fetching) (serverName : Text) : Prop :=
  ∃ (j : Nat) (c : FetchCall), s.calls[j]? = some c ∧ c.serverName = serverName ∧
    c.phase.admittedOn = true

/-- A call that leaves at the semaphore is not the last one that an exhausted circuit waits for. -/
def KeepsPermit (s : Fetching) : FetchAction → Prop
  | .acquireFail i => ∀ c, s.calls[i]? = some c → s.circuitBreaker.Exhausted c.serverName →
      ∃ (j : Nat) (d : FetchCall), j ≠ i ∧ s.calls[j]? = some d ∧ d.serverName = c.serverName ∧
        d.phase.admittedOn = true
  | _ => True

/-- Every exhausted circuit waits for a call. -/
structure BreakerInv (s : Fetching) : Prop where
  sorted : Sorted s.circuitBreaker.servers
  awaited : ∀ serverName, s.circuitBreaker.Exhausted serverName → s.Awaited serverName

variable {cb : CircuitBreaker}

/-- A call that is waited for is still there when another call has moved. -/
theorem Fetching.Awaited.setPhase {serverName : Text} {c : FetchCall} {phase : FetchPhase}
    (hi : s.calls[i]? = some c) (h : s.Awaited serverName)
    (hkeep : c.serverName = serverName → c.phase.admittedOn = true → phase.admittedOn = true) :
    ((s.setBreaker cb).setPhase i c phase).Awaited serverName := by
  obtain ⟨j, d, hj, hname, hon⟩ := h
  by_cases hij : i = j
  · subst hij
    cases hi.symm.trans hj
    refine ⟨i, { c with phase := phase }, ?_, hname, hkeep hname hon⟩
    exact getElem?_set_self (List.getElem?_eq_some_iff.1 hi).1
  · refine ⟨j, d, ?_, hname, hon⟩
    exact (getElem?_set_ne hij).trans hj

theorem sorted_recordSuccess (hs : Sorted cb.servers) (serverName : Text) (now : Nat) :
    Sorted (cb.recordSuccess serverName now).servers := by
  unfold CircuitBreaker.recordSuccess
  split
  · exact hs
  · exact sorted_insert _ _ hs

theorem sorted_cleanupLocked (hs : Sorted cb.servers) (now : Nat) :
    Sorted (cb.cleanupLocked now).servers :=
  sorted_filterValues (fun sc => if cb.isExpiredLocked sc now then none else some sc) hs

theorem sorted_allow (hs : Sorted cb.servers) (serverName : Text) (now : Nat) :
    Sorted (cb.allow serverName now).1.servers := by
  obtain heq | heq | ⟨sc, hget, heq⟩ := allow_cases cb serverName now <;> rw [heq]
  · exact hs
  · exact sorted_erase _ hs
  · exact sorted_insert _ _ hs

theorem sorted_recordFailure (hs : Sorted cb.servers) (serverName : Text) (now : Nat)
    (order : List Text) :
    Sorted (cb.recordFailure serverName now order).servers := by
  have hclean := sorted_cleanupLocked hs now
  unfold CircuitBreaker.recordFailure CircuitBreaker.evictOldestLocked
  dsimp only
  split
  · exact sorted_insert _ _ hclean
  · refine sorted_insert _ _ ?_
    split_ifs
    · exact hclean
    · exact sorted_erase _ hclean
    · exact hclean

/-- **One step** that spares the last awaited call keeps the invariant. -/
theorem BreakerInv.step {a : FetchAction} (h : BreakerInv s) (hok : KeepsPermit s a)
    (hs : s.step a = some s') : BreakerInv s' := by
  cases a with
  | tick d =>
    cases hs
    exact ⟨h.sorted, h.awaited⟩
  | start serverName =>
    cases hs
    refine ⟨h.sorted, fun name hex => ?_⟩
    obtain ⟨j, c, hj, hname, hon⟩ := h.awaited name hex
    refine ⟨j, c, ?_, hname, hon⟩
    exact (getElem?_append_left (List.getElem?_eq_some_iff.1 hj).1).trans hj
  | canceled i =>
    obtain ⟨c, hi, hphase, rfl⟩ := entry_some hs
    refine ⟨h.sorted, fun name hex => ?_⟩
    refine Fetching.Awaited.setPhase hi (h.awaited name hex) fun _ hon => ?_
    rw [hphase] at hon
    cases hon
  | allow i =>
    obtain ⟨c, hi, hphase, rfl⟩ := entry_some hs
    refine ⟨sorted_allow h.sorted _ _, fun name hex => ?_⟩
    obtain ⟨rfl, hpass⟩ | hold := exhausted_of_allow hex
    · -- the request that exhausts the circuit is on its way
      refine ⟨i, _, getElem?_set_self (List.getElem?_eq_some_iff.1 hi).1, rfl, ?_⟩
      rw [if_pos hpass]
      rfl
    · refine Fetching.Awaited.setPhase hi (h.awaited name hold) fun _ hon => ?_
      rw [hphase] at hon
      cases hon
  | acquireFail i =>
    obtain ⟨c, hi, _, rfl⟩ := entry_some hs
    refine ⟨h.sorted, fun name hex => ?_⟩
    by_cases hname : c.serverName = name
    · subst hname
      obtain ⟨j, d, hj, hd, hdname, hon⟩ := hok c hi hex
      exact ⟨j, d, (getElem?_set_ne hj.symm).trans hd, hdname, hon⟩
    · exact Fetching.Awaited.setPhase hi (h.awaited name hex) fun heq => absurd heq hname
  | acquire i =>
    obtain ⟨c, hi, _, rfl⟩ := entry_some hs
    exact ⟨h.sorted, fun name hex => Fetching.Awaited.setPhase hi (h.awaited name hex)
      fun _ _ => rfl⟩
  | succeed i =>
    obtain ⟨c, hi, _, rfl⟩ := entry_some hs
    refine ⟨sorted_recordSuccess h.sorted _ _, fun name hex => ?_⟩
    obtain ⟨hne, hold⟩ := exhausted_of_recordSuccess hex
    exact Fetching.Awaited.setPhase hi (h.awaited name hold) fun heq => absurd heq.symm hne
  | fail i order =>
    obtain ⟨c, hi, _, rfl⟩ := entry_some hs
    refine ⟨sorted_recordFailure h.sorted _ _ _, fun name hex => ?_⟩
    obtain ⟨hne, hold⟩ := exhausted_of_recordFailure h.sorted hex
    exact Fetching.Awaited.setPhase hi (h.awaited name hold) fun heq => absurd heq.symm hne
  | stats =>
    cases hs
    exact ⟨sorted_cleanupLocked h.sorted _, fun name hex =>
      h.awaited name (exhausted_of_cleanupLocked h.sorted hex)⟩

end Steps

variable {s : Fetching}

theorem breakerInv_reach {failureThreshold resetTimeout : Int} (h : Reach Fetching.step KeepsPermit
      (newFetching (newCircuitBreaker failureThreshold resetTimeout)) s) : BreakerInv s := by
  refine h.invariant ⟨Pairwise.nil, ?_⟩ fun _ _ _ hi hok hs => hi.step hok hs
  rintro serverName ⟨sc, hget, -⟩
  cases hget

/-- **An idle circuit recovers**, in every run in which no call leaves at the semaphore as the last
one that an exhausted circuit waits for: with no call for the server between `Allow` and its
outcome, and more than `resetTimeout` after the last recorded failure, `Allow` returns true. -/
theorem idle_circuit_recovers {failureThreshold resetTimeout : Int} {s : Fetching}
    (h : Reach Fetching.step KeepsPermit
      (newFetching (newCircuitBreaker failureThreshold resetTimeout)) s) {serverName : Text}
    (hidle : ∀ c ∈ s.calls, c.serverName = serverName → c.phase.admittedOn = false)
    (hlate : ∀ sc, Assoc.get serverName s.circuitBreaker.servers = some sc →
      s.circuitBreaker.resetTimeout < s.clock - sc.lastFailure) :
    (s.circuitBreaker.allow serverName s.clock).2 = true := by
  by_contra hdeny
  obtain ⟨sc, hget, hrecent⟩ | hex := allow_eq_false (Bool.eq_false_iff.2 hdeny)
  · exact absurd (hlate sc hget) (Nat.not_lt.2 hrecent)
  · obtain ⟨j, c, hj, hname, hon⟩ := (breakerInv_reach h).awaited serverName hex
    rw [hidle c (mem_of_getElem? hj) hname] at hon
    cases hon

/-! ## Runs -/

/-- Call `i` for the server fails at all its sources. -/
def failedFetch (serverName : Text) (i : Nat) (order : List Text) : List FetchAction :=
  [.start serverName, .allow i, .acquire i, .fail i order]

/-- Five failed calls trip the circuit. -/
def tripped (serverName : Text) : List FetchAction :=
  failedFetch serverName 0 [] ++ [1, 2, 3, 4].flatMap fun i => failedFetch serverName i [serverName]

/-- Call `i` is admitted, and its context ends while it waits for the semaphore. -/
def leftAtSemaphore (serverName : Text) (i : Nat) : List FetchAction :=
  [.start serverName, .allow i, .acquireFail i]

/-- No call has left at the semaphore. -/
def neverLeaves (_ : Fetching) : FetchAction → Bool
  | .acquireFail _ => false
  | _ => true

theorem keepsPermit_of_neverLeaves {a : FetchAction} (h : neverLeaves s a = true) :
    KeepsPermit s a := by
  cases a with
  | acquireFail i => cases h
  | _ => trivial

theorem idle_circuit_recovers_tripped :
    ∃ s sc, Reach Fetching.step KeepsPermit (newFetching (newCircuitBreaker 5 (60 * second))) s ∧
      Assoc.get "a".toList s.circuitBreaker.servers = some sc ∧ sc.state = .circuitOpen ∧
      (s.circuitBreaker.allow "a".toList s.clock).2 = true := by
  have hrun : (execute Fetching.step neverLeaves
      (newFetching (newCircuitBreaker 5 (60 * second)))
      (tripped "a".toList ++ [.tick (61 * second)])).map
      (fun s => (s.calls.all fun c => !c.phase.admittedOn, s.clock,
        s.circuitBreaker.resetTimeout, Assoc.get "a".toList s.circuitBreaker.servers)) =
      some (true, 61 * second, 60 * second, some ⟨.circuitOpen, 5, 0, 0, 0⟩) := by
    decide +kernel
  obtain ⟨s, hs, hobs⟩ := reach_observe (P := fun _ => True) (fun _ _ => trivial)
    (fun _ _ _ h => keepsPermit_of_neverLeaves h) hrun
  simp only [Prod.mk.injEq] at hobs
  obtain ⟨hidle, hclock, hreset, hget⟩ := hobs
  refine ⟨s, _, hs, hget, rfl, idle_circuit_recovers hs (fun c hc _ => ?_) fun sc hsc => ?_⟩
  · simpa using all_eq_true.1 hidle c hc
  · rw [hget] at hsc
    cases hsc
    rw [hclock, hreset]
    decide

/-- **A circuit that nobody can close.**  Two admitted calls leave at the semaphore.  Ten minutes
later no call is running, and `Allow` still turns the server away. -/
theorem permit_lost :
    ∃ s sc, Reach Fetching.step anyAction (newFetching (newCircuitBreaker 5 (60 * second))) s ∧
      (∀ c ∈ s.calls, ∃ outcome, c.phase = .returned outcome) ∧
      Assoc.get "a".toList s.circuitBreaker.servers = some sc ∧
      s.circuitBreaker.resetTimeout < s.clock - sc.lastFailure ∧
      (s.circuitBreaker.allow "a".toList s.clock).2 = false := by
  have hrun : (execute Fetching.step (fun _ _ => true)
      (newFetching (newCircuitBreaker 5 (60 * second)))
      (tripped "a".toList ++ [.tick (61 * second)] ++ leftAtSemaphore "a".toList 5 ++
        leftAtSemaphore "a".toList 6 ++ [.tick (600 * second)])).map
      (fun s => (s.calls.map FetchCall.phase, s.clock, s.circuitBreaker.resetTimeout,
        Assoc.get "a".toList s.circuitBreaker.servers,
        (s.circuitBreaker.allow "a".toList s.clock).2)) =
      some (replicate 5 (.returned .allSourcesFailed) ++
          replicate 2 (.returned .concurrencyLimit), 661 * second, 60 * second,
        some ⟨.circuitHalfOpen, 5, 0, 61 * second, 1⟩, false) := by
    decide +kernel
  obtain ⟨s, hs, hobs⟩ := reach_observe_any hrun
  simp only [Prod.mk.injEq] at hobs
  obtain ⟨hphases, hclock, hreset, hget, hdeny⟩ := hobs
  refine ⟨s, _, hs, fun c hc => ?_, hget, by rw [hclock, hreset]; decide, hdeny⟩
  have hmem : c.phase ∈ s.calls.map FetchCall.phase := mem_map_of_mem hc
  rw [hphases, mem_append, mem_replicate, mem_replicate] at hmem
  obtain ⟨_, hp⟩ | ⟨_, hp⟩ := hmem
  · exact ⟨_, hp⟩
  · exact ⟨_, hp⟩

end MxKeys.Keys
