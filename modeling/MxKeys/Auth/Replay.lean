/-
# MxKeys.Auth.Replay — authenticated messages and the memory of their codes.

Raft nodes and cluster nodes authenticate their messages in the same way: a message carries an
HMAC over its other fields, its timestamp has to lie within five minutes of the clock, and a code
that has been accepted is remembered, under the message's own timestamp, until that timestamp is
more than five minutes old.

The check of the timestamp and the purge of the memory read the clock separately.  A verification is
therefore three steps here (`check`, `sign`, `track`), the verifications of a node run at the same
time, and the clock moves between any two steps.
-/
import MxKeys.Canonical.Json
import MxKeys.Lib.Digest
import MxKeys.Lib.Hex
import MxKeys.Lib.Rfc3339
import MxKeys.Lib.Run

namespace MxKeys.Auth

open MxKeys.Lib
open Assoc
open List

/-! ## Messages -/

/-- An `RPCMessage` or a `ClusterMessage`.  Times are in nanoseconds since the epoch. -/
structure Message where
  type : Text
  sender : Text
  timestamp : Int
  payload : Bytes
  signature : Text
  deriving DecidableEq

/-- Why a request is refused. -/
inductive AuthError
  | missing
  | outsideSkew
  | encoding
  | mismatch
  | replay
  deriving DecidableEq

/-- The fields under the code, as canonical JSON. -/
def macPayload (msg : Message) : Option Bytes :=
  Canonical.marshal <| .obj [
    ("type".toList, .str msg.type),
    ("from".toList, .str msg.sender),
    ("timestamp".toList, .str (Rfc3339.format msg.timestamp 0)),
    ("payload_hex".toList, .str (Hex.encode msg.payload))]

/-- `rpcMACPayload`, of an RPC between Raft nodes. -/
def rpcMACPayload : Message → Option Bytes := macPayload

/-- `messageMACPayload`, of a message between caches. -/
def messageMACPayload : Message → Option Bytes := macPayload

/-- The code of an encoded message. -/
def macText (secret payload : Bytes) : Text :=
  Hex.encode (Digest.hmacSHA256 secret payload)

/-- `time.Time{}`. -/
def zeroTime : Int := -62135596800000000000

/-- The signature that `signRPC` computes; a message without a timestamp gets the clock's. -/
def signRPC (secret : Bytes) (msg : Message) (now : Int) : Option Text :=
  let msg := if msg.timestamp = zeroTime then { msg with timestamp := now } else msg
  (rpcMACPayload msg).map (macText secret)

/-- `signMessage`; the time is not part of the code. -/
def signMessage (secret : Bytes) (msg : Message) (_ : Int) : Option Text :=
  (messageMACPayload msg).map (macText secret)

/-- What differs between the nodes. -/
structure Rules where
  maxSkew : Int
  sign : Message → Int → Option Text

def minute : Int := 60000000000

/-- `verifyRPC` on a Raft node. -/
def rpcRules (secret : Bytes) : Rules := ⟨5 * minute, signRPC secret⟩

/-- `verifyMessage` on a cluster node. -/
def messageRules (secret : Bytes) : Rules := ⟨5 * minute, signMessage secret⟩

/-! ## A node that verifies messages -/

/-- How far a verification has come. -/
inductive VerifyPhase
  /-- Has a signature and a timestamp inside the window. -/
  | fresh
  /-- The code is right. -/
  | authentic
  | rejected (error : AuthError)
  | accepted
  deriving DecidableEq

/-- A verification of one message. -/
structure VerifyCall where
  msg : Message
  phase : VerifyPhase
  deriving DecidableEq

/-- A receiver: its clock, the codes it remembers, and its verifications. -/
structure Node where
  clock : Int
  /-- `seenRPCs` or `seenMACs`, by code. -/
  seen : List (Text × Int)
  calls : List VerifyCall

/-- The checks before the code is computed. -/
def Rules.check (r : Rules) (msg : Message) (now : Int) : VerifyPhase :=
  if msg.signature = [] then .rejected .missing
  else if r.maxSkew < now - msg.timestamp ∨ now - msg.timestamp < -r.maxSkew then
    .rejected .outsideSkew
  else .fresh

/-- The code is computed again and compared. -/
def Rules.compare (r : Rules) (msg : Message) (now : Int) : VerifyPhase :=
  match r.sign msg now with
  | none => .rejected .encoding
  | some expected => if expected = msg.signature then .authentic else .rejected .mismatch

/-- Drop the codes whose timestamp lies before `cutoff`. -/
def purge (cutoff : Int) (seen : List (Text × Int)) : List (Text × Int) :=
  filterValues (fun seenAt => if seenAt < cutoff then none else some seenAt) seen

/-- `trackRPCSignature` and `trackMessageMAC`: purge, then remember the code unless it is there. -/
def Rules.track (r : Rules) (seen : List (Text × Int)) (msg : Message) (now : Int) :
    List (Text × Int) × Bool :=
  let cutoff := now - r.maxSkew
  let seen := purge cutoff seen
  match Assoc.get msg.signature seen with
  | some seenAt =>
    if seenAt < cutoff then (Assoc.insert msg.signature msg.timestamp seen, true) else (seen, false)
  | none => (Assoc.insert msg.signature msg.timestamp seen, true)

/-- Time passes, or a verification takes its next step. -/
inductive Action
  | tick (d : Nat)
  | check (msg : Message)
  | sign (i : Nat)
  | track (i : Nat)

def Node.setPhase (s : Node) (i : Nat) (c : VerifyCall) (phase : VerifyPhase) : Node :=
  { s with calls := s.calls.set i { c with phase := phase } }

/-- The last step of a verification, with the memory afterwards. -/
def Node.tracked (r : Rules) (s : Node) (i : Nat) (c : VerifyCall) : Node :=
  { s with seen := (r.track s.seen c.msg s.clock).1 }.setPhase i c
    (if (r.track s.seen c.msg s.clock).2 then .accepted else .rejected .replay)

/-- One step; `none` if it cannot happen. -/
def step (r : Rules) (s : Node) : Action → Option Node
  | .tick d => some { s with clock := s.clock + d }
  | .check msg => some { s with calls := s.calls ++ [⟨msg, r.check msg s.clock⟩] }
  | .sign i => do
    let c ← s.calls[i]?
    guard (c.phase = .fresh)
    return s.setPhase i c (r.compare c.msg s.clock)
  | .track i => do
    let c ← s.calls[i]?
    guard (c.phase = .authentic)
    return s.tracked r i c

/-- A node that has just been started, at some time. -/
def newNode (now : Int) : Node := ⟨now, [], []⟩

/-! ## The memory -/

section Memory

variable {r : Rules} {seen : List (Text × Int)} {msg : Message} {now : Int} {code : Text}
  {seenAt : Int}

theorem get_purge (hs : Sorted seen) (cutoff : Int)
    (h : Assoc.get code seen = some seenAt) :
    Assoc.get code (purge cutoff seen) = if seenAt < cutoff then none else some seenAt := by
  unfold purge
  rw [get_filterValues _ hs, h, Option.bind_some]

theorem sorted_purge (hs : Sorted seen) (cutoff : Int) : Sorted (purge cutoff seen) :=
  sorted_filterValues (fun seenAt => if seenAt < cutoff then none else some seenAt) hs

theorem sorted_track (hs : Sorted seen) : Sorted (r.track seen msg now).1 := by
  have hp := sorted_purge hs (now - r.maxSkew)
  unfold Rules.track
  dsimp only
  split
  · split_ifs
    · exact sorted_insert _ _ hp
    · exact hp
  · exact sorted_insert _ _ hp

/-- Another code is kept as long as its timestamp is in the window. -/
theorem track_keeps (hs : Sorted seen) (h : Assoc.get code seen = some seenAt)
    (hwin : now ≤ seenAt + r.maxSkew) (hne : code ≠ msg.signature) :
    Assoc.get code (r.track seen msg now).1 = some seenAt := by
  have hp := get_purge hs (now - r.maxSkew) h
  rw [if_neg (by omega)] at hp
  unfold Rules.track
  dsimp only
  split
  · split_ifs
    · rw [get_insert, if_neg hne]
      exact hp
    · exact hp
  · rw [get_insert, if_neg hne]
    exact hp

/-- **A remembered code in the window is refused**, and the memory keeps it. -/
theorem track_refuses (hs : Sorted seen)
    (h : Assoc.get msg.signature seen = some seenAt) (hwin : now ≤ seenAt + r.maxSkew) :
    (r.track seen msg now).2 = false ∧
      Assoc.get msg.signature (r.track seen msg now).1 = some seenAt := by
  have hp := get_purge hs (now - r.maxSkew) h
  rw [if_neg (by omega)] at hp
  unfold Rules.track
  dsimp only
  rw [hp]
  dsimp only
  rw [if_neg (by omega)]
  exact ⟨rfl, hp⟩

/-- A code that is accepted is remembered under its timestamp. -/
theorem track_stores (h : (r.track seen msg now).2 = true) :
    Assoc.get msg.signature (r.track seen msg now).1 = some msg.timestamp := by
  unfold Rules.track at h ⊢
  dsimp only at h ⊢
  split at h
  · split_ifs at h ⊢
    rw [get_insert, if_pos rfl]
  · rw [get_insert, if_pos rfl]

end Memory

/-! ## Accepted messages -/

/-- A message whose code was accepted before has the same timestamp, and is tracked before its
window has closed. -/
def InWindow (r : Rules) (s : Node) : Action → Prop
  | .track i => ∀ c d, s.calls[i]? = some c → d ∈ s.calls → d.phase = .accepted →
      d.msg.signature = c.msg.signature →
      d.msg.timestamp = c.msg.timestamp ∧ s.clock ≤ c.msg.timestamp + r.maxSkew
  | _ => True

/-- What holds in every run behind the absence of replays. -/
structure ReplayInv (r : Rules) (s : Node) : Prop where
  sorted : Sorted s.seen
  /-- An accepted code is remembered until its window has closed. -/
  remembered : ∀ c ∈ s.calls, c.phase = .accepted →
    Assoc.get c.msg.signature s.seen = some c.msg.timestamp ∨ c.msg.timestamp + r.maxSkew < s.clock
  apart : ∀ (i j : Nat) (c d : VerifyCall), s.calls[i]? = some c → s.calls[j]? = some d → i ≠ j →
    c.phase = .accepted → d.phase = .accepted → c.msg.signature ≠ d.msg.signature

section Steps

variable {r : Rules} {s s' : Node}

theorem replayInv_newNode (r : Rules) (now : Int) : ReplayInv r (newNode now) :=
  ⟨List.Pairwise.nil, nofun, nofun⟩

/-- A call moves to a phase other than `accepted`, and the memory keeps the codes in the window. -/
theorem ReplayInv.set (h : ReplayInv r s) {i : Nat} {c : VerifyCall} {phase : VerifyPhase}
    {seen : List (Text × Int)} (hs : Sorted seen) (hphase : phase ≠ .accepted)
    (hseen : ∀ d ∈ s.calls, d.phase = .accepted → s.clock ≤ d.msg.timestamp + r.maxSkew →
      Assoc.get d.msg.signature seen = some d.msg.timestamp) :
    ReplayInv r ({ s with seen := seen }.setPhase i c phase) := by
  have hback : ∀ (j : Nat) (d : VerifyCall),
      (s.calls.set i { c with phase := phase })[j]? = some d → d.phase = .accepted →
      s.calls[j]? = some d := by
    intro j d hj hd
    rw [getElem?_set] at hj
    split_ifs at hj with hij hlt
    · cases hj
      exact absurd hd hphase
    · exact hj
  refine ⟨hs, fun d hd hacc => ?_, fun j k d e hj hk hne hdacc heacc => ?_⟩
  · obtain ⟨j, hj⟩ := mem_iff_getElem?.1 hd
    by_cases hwin : s.clock ≤ d.msg.timestamp + r.maxSkew
    · exact .inl (hseen d (mem_of_getElem? (hback j d hj hacc)) hacc hwin)
    · exact .inr (not_le.1 hwin)
  · exact h.apart j k d e (hback j d hj hdacc) (hback k e hk heacc) hne hdacc heacc

/-- A code in the window is in the memory. -/
theorem ReplayInv.inSeen (h : ReplayInv r s) {d : VerifyCall} (hd : d ∈ s.calls)
    (hacc : d.phase = .accepted) (hwin : s.clock ≤ d.msg.timestamp + r.maxSkew) :
    Assoc.get d.msg.signature s.seen = some d.msg.timestamp :=
  (h.remembered d hd hacc).resolve_right (by omega)

theorem ReplayInv.tracked (h : ReplayInv r s) (i : Nat) {c : VerifyCall}
    (hok : ∀ d ∈ s.calls, d.phase = .accepted → d.msg.signature = c.msg.signature →
      d.msg.timestamp = c.msg.timestamp ∧ s.clock ≤ c.msg.timestamp + r.maxSkew) :
    ReplayInv r (s.tracked r i c) := by
  have hsorted : Sorted (r.track s.seen c.msg s.clock).1 := sorted_track h.sorted
  -- the memory after the step, for every code that was accepted before
  have hseen : ∀ d ∈ s.calls, d.phase = .accepted → s.clock ≤ d.msg.timestamp + r.maxSkew →
      Assoc.get d.msg.signature (r.track s.seen c.msg s.clock).1 = some d.msg.timestamp := by
    intro d hd hacc hwin
    have hin := h.inSeen hd hacc hwin
    by_cases hsig : d.msg.signature = c.msg.signature
    · rw [hsig] at hin ⊢
      exact (track_refuses h.sorted hin hwin).2
    · exact track_keeps h.sorted hin hwin hsig
  unfold Node.tracked
  cases hres : (r.track s.seen c.msg s.clock).2 with
  | false => exact h.set hsorted (by simp) hseen
  | true =>
    -- no accepted call has this code: it would be remembered
    have hnew : ∀ d ∈ s.calls, d.phase = .accepted → d.msg.signature ≠ c.msg.signature := by
      intro d hd hacc hsig
      obtain ⟨hts, hwin⟩ := hok d hd hacc hsig
      have hin := h.inSeen hd hacc (hts ▸ hwin)
      rw [hsig] at hin
      rw [(track_refuses h.sorted hin (hts ▸ hwin)).1] at hres
      cases hres
    have hget : ∀ (j : Nat) (d : VerifyCall),
        (s.calls.set i { c with phase := .accepted })[j]? = some d →
        j = i ∧ d = { c with phase := .accepted } ∨ j ≠ i ∧ s.calls[j]? = some d := by
      intro j d hj
      rw [getElem?_set] at hj
      split_ifs at hj with hij hlt
      · exact .inl ⟨hij.symm, (Option.some.inj hj).symm⟩
      · exact .inr ⟨Ne.symm hij, hj⟩
    refine ⟨hsorted, fun d hd hacc => ?_, fun j k d e hj hk hne hdacc heacc => ?_⟩
    · obtain ⟨j, hj⟩ := mem_iff_getElem?.1 hd
      obtain ⟨_, rfl⟩ | ⟨_, hold⟩ := hget j d hj
      · exact .inl (track_stores hres)
      · by_cases hwin : s.clock ≤ d.msg.timestamp + r.maxSkew
        · exact .inl (hseen d (mem_of_getElem? hold) hacc hwin)
        · exact .inr (not_le.1 hwin)
    · obtain ⟨hji, hd⟩ | ⟨_, hd⟩ := hget j d hj <;> obtain ⟨hki, he⟩ | ⟨_, he⟩ := hget k e hk
      · exact absurd (hji.trans hki.symm) hne
      · rw [hd]
        exact (hnew e (mem_of_getElem? he) heacc).symm
      · rw [he]
        exact hnew d (mem_of_getElem? hd) hdacc
      · exact h.apart j k d e hd he hne hdacc heacc

theorem check_ne_accepted (msg : Message) (now : Int) : r.check msg now ≠ .accepted := by
  unfold Rules.check
  split_ifs <;> simp

theorem compare_ne_accepted (msg : Message) (now : Int) : r.compare msg now ≠ .accepted := by
  unfold Rules.compare
  split
  · simp
  · split_ifs <;> simp

theorem ReplayInv.step {a : Action} (h : ReplayInv r s) (hok : InWindow r s a)
    (hs : Auth.step r s a = some s') : ReplayInv r s' := by
  cases a with
  | tick d =>
    cases hs
    refine ⟨h.sorted, fun c hc hacc => (h.remembered c hc hacc).imp_right fun hlt => ?_, h.apart⟩
    show c.msg.timestamp + r.maxSkew < s.clock + d
    omega
  | check msg =>
    cases hs
    have hold : ∀ (j : Nat) (d : VerifyCall),
        (s.calls ++ [⟨msg, r.check msg s.clock⟩])[j]? = some d → d.phase = .accepted →
        s.calls[j]? = some d := by
      intro j d hj hacc
      rw [getElem?_append] at hj
      split_ifs at hj with hlt
      · exact hj
      · rw [mem_singleton.1 (mem_of_getElem? hj)] at hacc
        exact absurd hacc (check_ne_accepted msg s.clock)
    refine ⟨h.sorted, fun d hd hacc => ?_, fun j k d e hj hk hne hdacc heacc => ?_⟩
    · obtain ⟨j, hj⟩ := mem_iff_getElem?.1 hd
      exact h.remembered d (mem_of_getElem? (hold j d hj hacc)) hacc
    · exact h.apart j k d e (hold j d hj hdacc) (hold k e hk heacc) hne hdacc heacc
  | sign i =>
    obtain ⟨c, hi, _, rfl⟩ := entry_some hs
    exact h.set (i := i) (c := c) h.sorted (compare_ne_accepted c.msg s.clock)
      fun d hd hacc hwin => h.inSeen hd hacc hwin
  | track i =>
    obtain ⟨c, hi, _, rfl⟩ := entry_some hs
    exact h.tracked i fun d hd hacc hsig => hok c d hi hd hacc hsig

theorem replayInv_reach {now : Int} (h : Reach (Auth.step r) (InWindow r) (newNode now) s) :
    ReplayInv r s :=
  h.invariant (replayInv_newNode r now) fun _ _ _ hi hok hs => hi.step hok hs

end Steps

/-- No two accepted messages have the same code. -/
def AcceptedOnce (s : Node) : Prop :=
  ∀ (i j : Nat) (c d : VerifyCall), s.calls[i]? = some c → s.calls[j]? = some d → i ≠ j →
    c.phase = .accepted → d.phase = .accepted → c.msg.signature ≠ d.msg.signature

/-- **No message is accepted twice**, by `verifyRPC` on a Raft node or by `verifyMessage` on a
cluster node, in every run in which a message that comes again has its first timestamp and is
tracked before its window has closed. -/
theorem accepted_once (secret : Bytes) (now : Int) (s : Node) :
    (Reach (step (rpcRules secret)) (InWindow (rpcRules secret)) (newNode now) s →
      AcceptedOnce s) ∧
    (Reach (step (messageRules secret)) (InWindow (messageRules secret)) (newNode now) s →
      AcceptedOnce s) :=
  ⟨fun h => (replayInv_reach h).apart, fun h => (replayInv_reach h).apart⟩

/-! ## Runs -/

/-- A message before its code has been tracked: `late` nanoseconds have passed since its check. -/
def Node.waiting (s : Node) (msg : Message) (late : Nat) : Node :=
  { s with clock := s.clock + late, calls := s.calls ++ [⟨msg, .authentic⟩] }

section Runs

variable {r : Rules} {ok : Node → Action → Prop} {s₀ s : Node} {msg : Message}

/-- One verification from end to end. -/
theorem reach_tracked (h : Reach (step r) ok s₀ s) (late : Nat)
    (hcheck : r.check msg s.clock = .fresh) (hsign : r.sign msg s.clock = some msg.signature)
    (hok : ∀ t a, (∀ i, a ≠ .track i) → ok t a)
    (htrack : ok (s.waiting msg late) (.track s.calls.length)) :
    Reach (step r) ok s₀ ((s.waiting msg late).tracked r s.calls.length ⟨msg, .authentic⟩) := by
  have hcompare : r.compare msg s.clock = .authentic := by
    simp only [Rules.compare, hsign, if_true]
  have h₁ : step r s (.check msg) = some { s with calls := s.calls ++ [⟨msg, .fresh⟩] } := by
    simp only [step, hcheck]
  have h₂ : step r { s with calls := s.calls ++ [⟨msg, .fresh⟩] } (.sign s.calls.length) =
      some { s with calls := s.calls ++ [⟨msg, .authentic⟩] } := by
    simp [step, hcompare, Node.setPhase, guard]
  have h₄ : step r (s.waiting msg late) (.track s.calls.length) =
      some ((s.waiting msg late).tracked r s.calls.length ⟨msg, .authentic⟩) := by
    simp [step, Node.waiting, guard]
  have hchecked := h.tail (hok _ _ fun _ ha => by cases ha) h₁
  have hsigned := hchecked.tail (hok _ _ fun _ ha => by cases ha) h₂
  exact (hsigned.tail (hok _ (.tick late) fun _ ha => by cases ha) rfl).tail htrack h₄

/-- What happens to a code that is in the memory alone. -/
theorem track_again (seenAt now : Int) :
    r.track [(msg.signature, seenAt)] msg now =
      if seenAt < now - r.maxSkew then ([(msg.signature, msg.timestamp)], true)
      else ([(msg.signature, seenAt)], false) := by
  by_cases hold : seenAt < now - r.maxSkew
  · simp [Rules.track, purge, filterValues, hold, Assoc.insert]
  · simp [Rules.track, purge, filterValues, hold, Assoc.get]

end Runs

/-- A heartbeat of node `b`, before it is signed. -/
def unsigned : Message := ⟨"heartbeat".toList, "b".toList, 1000 * minute, [], []⟩

/-- A message with its code. -/
def heartbeat : Message :=
  { unsigned with signature := ((macPayload unsigned).map (macText [1, 2, 3])).getD [] }

theorem heartbeat_signed : (macPayload heartbeat).map (macText [1, 2, 3]) =
    some heartbeat.signature := by
  have hsome : (macPayload unsigned).isSome = true := by decide +kernel
  obtain ⟨p, hp⟩ := Option.isSome_iff_exists.1 hsome
  have hsame : macPayload heartbeat = macPayload unsigned := rfl
  have hsig : heartbeat.signature = ((macPayload unsigned).map (macText [1, 2, 3])).getD [] := rfl
  rw [hsame, hsig, hp]
  rfl

/-- Both kinds of node find the heartbeat signed, at any time. -/
theorem signs_heartbeat (now : Int) :
    (rpcRules [1, 2, 3]).sign heartbeat now = some heartbeat.signature ∧
      (messageRules [1, 2, 3]).sign heartbeat now = some heartbeat.signature := by
  refine ⟨?_, heartbeat_signed⟩
  have hts : heartbeat.timestamp ≠ zeroTime := by
    show (1000 * minute : Int) ≠ zeroTime
    decide
  show signRPC [1, 2, 3] heartbeat now = _
  unfold signRPC
  rw [if_neg hts]
  exact heartbeat_signed

theorem heartbeat_signature_ne_nil : heartbeat.signature ≠ [] := by
  obtain ⟨p, _, hp⟩ := Option.map_eq_some_iff.1 heartbeat_signed
  rw [← hp]
  intro hnil
  have hlen := congrArg List.length
    (Hex.encode_injective (hnil.trans (by rfl : [] = Hex.encode [])))
  rw [Digest.length_hmacSHA256] at hlen
  cases hlen

section Heartbeat

variable {r : Rules} {ok : Node → Action → Prop} (hskew : r.maxSkew = 5 * minute)
  (hsign : ∀ now, r.sign heartbeat now = some heartbeat.signature)
  (hok : ∀ t a, (∀ i, a ≠ .track i) → ok t a)

include hskew in
theorem heartbeat_fresh {now : Int} (hlow : 995 * minute ≤ now) (hhigh : now ≤ 1005 * minute) :
    r.check heartbeat now = .fresh := by
  have hts : heartbeat.timestamp = 1000 * minute := rfl
  unfold Rules.check
  rw [if_neg heartbeat_signature_ne_nil, if_neg (by rw [hskew, hts]; omega)]

include hskew hsign hok

/-- The heartbeat is accepted; it is checked again `wait` later and tracked another `late` later. -/
theorem heartbeat_twice (wait late : Nat) (hwait : (wait : Int) ≤ 5 * minute)
    (hfirst : ok ((newNode (1000 * minute)).waiting heartbeat 0) (.track 0))
    (hsecond : ok (Node.waiting ⟨1000 * minute + wait, [(heartbeat.signature, 1000 * minute)],
      [⟨heartbeat, .accepted⟩]⟩ heartbeat late) (.track 1)) :
    ∃ s, Reach (step r) ok (newNode (1000 * minute)) s ∧
      s.calls = [⟨heartbeat, .accepted⟩, ⟨heartbeat,
        if 5 * minute < wait + late then .accepted else .rejected .replay⟩] := by
  have h₁ := reach_tracked (s := newNode (1000 * minute)) .refl 0
    (heartbeat_fresh hskew (by decide) (by decide)) (hsign _) hok hfirst
  have heq : ((newNode (1000 * minute)).waiting heartbeat 0).tracked r 0 ⟨heartbeat, .authentic⟩ =
      ⟨1000 * minute, [(heartbeat.signature, 1000 * minute)], [⟨heartbeat, .accepted⟩]⟩ := rfl
  rw [show (newNode (1000 * minute)).calls.length = 0 from rfl, heq] at h₁
  have hfresh : r.check heartbeat (1000 * minute + wait) = .fresh :=
    heartbeat_fresh hskew (by omega) (by omega)
  have h₂ := reach_tracked (h₁.tail (hok _ (.tick wait) fun _ ha => by cases ha) rfl) late
    hfresh (hsign _) hok hsecond
  refine ⟨_, h₂, ?_⟩
  have hiff : ((1000 * minute : Int) < 1000 * minute + wait + late - r.maxSkew) ↔
      5 * minute < (wait : Int) + late := by
    rw [hskew]
    omega
  simp only [Node.tracked, Node.waiting, Node.setPhase, track_again, hiff]
  by_cases hlate : 5 * minute < (wait : Int) + late
  · simp only [if_pos hlate]
    rfl
  · simp only [if_neg hlate]
    rfl

end Heartbeat

/-- A message and its replay four minutes later, on both kinds of node. -/
theorem accepted_once_replayed :
    ∃ s t : Node,
      (Reach (step (rpcRules [1, 2, 3])) (InWindow (rpcRules [1, 2, 3]))
        (newNode (1000 * minute)) s ∧
        s.calls.map (·.phase) = [.accepted, .rejected .replay] ∧ AcceptedOnce s) ∧
      (Reach (step (messageRules [1, 2, 3])) (InWindow (messageRules [1, 2, 3]))
        (newNode (1000 * minute)) t ∧
        t.calls.map (·.phase) = [.accepted, .rejected .replay] ∧ AcceptedOnce t) := by
  have hrun : ∀ r : Rules, r.maxSkew = 5 * minute →
      (∀ now, r.sign heartbeat now = some heartbeat.signature) →
      ∃ s, Reach (step r) (InWindow r) (newNode (1000 * minute)) s ∧
        s.calls = [⟨heartbeat, .accepted⟩, ⟨heartbeat, .rejected .replay⟩] := by
    intro r hskew hsign
    refine heartbeat_twice hskew hsign (fun t a ha => ?_) 240000000000 1 (by decide) ?_ ?_
    · cases a with
      | track i => exact absurd rfl (ha i)
      | _ => trivial
    · intro c d _ hd hacc
      obtain rfl := mem_singleton.1 hd
      cases hacc
    · intro c d hc hd _ _
      obtain rfl : c = ⟨heartbeat, .authentic⟩ := (Option.some.inj hc).symm
      have hmsg : d.msg = heartbeat := by
        rcases mem_cons.1 hd with rfl | hd
        · rfl
        · rw [mem_singleton.1 hd]
      rw [hmsg]
      refine ⟨rfl, ?_⟩
      show (1000 * minute + (240000000000 : Nat) + (1 : Nat) : Int) ≤ 1000 * minute + r.maxSkew
      rw [hskew]
      decide
  obtain ⟨s, hs, hscalls⟩ := hrun (rpcRules [1, 2, 3]) rfl fun now => (signs_heartbeat now).1
  obtain ⟨t, ht, htcalls⟩ := hrun (messageRules [1, 2, 3]) rfl fun now => (signs_heartbeat now).2
  exact ⟨s, t, ⟨hs, by rw [hscalls]; rfl, (accepted_once [1, 2, 3] (1000 * minute) s).1 hs⟩,
    ht, by rw [htcalls]; rfl, (accepted_once [1, 2, 3] (1000 * minute) t).2 ht⟩

/-- **A replay at the edge of the window.**  The timestamp is exactly five minutes old when the
replay is checked, and older when the memory is purged: both kinds of node accept the message
twice. -/
theorem replay_accepted :
    (∃ s c d, Reach (step (rpcRules [1, 2, 3])) anyAction (newNode (1000 * minute)) s ∧
      s.calls = [c, d] ∧ c.phase = .accepted ∧ d.phase = .accepted ∧
      c.msg.signature = d.msg.signature) ∧
    ∃ s c d, Reach (step (messageRules [1, 2, 3])) anyAction (newNode (1000 * minute)) s ∧
      s.calls = [c, d] ∧ c.phase = .accepted ∧ d.phase = .accepted ∧
      c.msg.signature = d.msg.signature := by
  have hrun : ∀ r : Rules, r.maxSkew = 5 * minute →
      (∀ now, r.sign heartbeat now = some heartbeat.signature) →
      ∃ s, Reach (step r) anyAction (newNode (1000 * minute)) s ∧
        s.calls = [⟨heartbeat, .accepted⟩, ⟨heartbeat, .accepted⟩] := fun r hskew hsign =>
    heartbeat_twice hskew hsign (fun _ _ _ => trivial) 300000000000 1 (by decide) trivial trivial
  obtain ⟨s, hs, hscalls⟩ := hrun (rpcRules [1, 2, 3]) rfl fun now => (signs_heartbeat now).1
  obtain ⟨t, ht, htcalls⟩ := hrun (messageRules [1, 2, 3]) rfl fun now => (signs_heartbeat now).2
  exact ⟨⟨s, _, _, hs, hscalls, rfl, rfl, rfl⟩, t, _, _, ht, htcalls, rfl, rfl, rfl⟩

end MxKeys.Auth
