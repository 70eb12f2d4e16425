/-
# MxKeys.Consensus.History — an abstract leader-based replicated log, with its history in the state.

The state says what each replica holds (`term`, `role`, its full log, how much of it is compacted
away) and what has happened so far: who was elected in each term, the log each term's leader had
(`hist`), every vote with the log the voter held when it voted, every campaign with the log it
started from, and every acknowledgement.  Logs are lists; position `k` is log index `k + 1`.

Two things differ from the textbook protocol.  Replicas compact: below `base n` only the content of
a committed prefix is known.  And a replica that installs a snapshot keeps whatever tail it had
above it, matching or not, so a log need not be the prefix of any leader's log, and its terms need
not be sorted.  `log_wf` therefore speaks about the window above `base` only.

`Inv` is the inductive invariant.  The two clauses that carry the weight are `acked_wf` and
`acked_vote`: an acknowledged entry is still in the replica's log *provided every later leader up to
the replica's term has it*.  The proviso is what makes the clause inductive without already knowing
that committed entries are never lost.
-/
import Mathlib.Logic.Function.Basic
import MxKeys.Lib.Agree
import MxKeys.Lib.Quorum

namespace MxKeys.Consensus

open MxKeys.Lib

/-- Entries carry the term of the leader that made them. -/
class Termed (E : Type*) where
  term : E → Nat

open Termed (term)

/-- What a replica is doing in its current term. -/
inductive Role
  | follower
  | candidate
  | leader
  deriving DecidableEq

/-- Replicas and their history. -/
structure History (N E : Type*) where
  /-- Current term of a replica. -/
  termOf : N → Nat
  role : N → Role
  /-- The replica's log as it would be had nothing been compacted. -/
  full : N → List E
  /-- The number of entries of `full` that the replica has compacted away. -/
  base : N → Nat
  /-- The vote of a replica in a term. -/
  vote : N → Nat → Option N
  /-- The log a replica held when it voted, for votes cast before the term had a leader. -/
  voteLog : N → Nat → Option (List E)
  /-- The log and the compaction boundary with which a replica campaigned in a term. -/
  camp : N → Nat → Option (List E × Nat)
  /-- The replica elected in a term. -/
  leader : Nat → Option N
  /-- The log of a term's leader. -/
  hist : Nat → List E
  /-- `acked n T j`: while in term `T`, replica `n` held the leader's log up to position `j`. -/
  acked : N → Nat → Nat → Prop
  /-- `cp T j`: a majority acknowledged position `j` in term `T`. -/
  cp : Nat → Nat → Prop

variable {N E : Type*} [Termed E]

/-- A term that has had a leader. -/
def Elected (g : History N E) (T : Nat) : Prop := ∃ n, g.leader T = some n

/-- Term of the last entry, `0` for the empty log. -/
def lastTerm (l : List E) : Nat := (l.getLast?.map term).getD 0

/-- `R` is at least as up to date as `L`: the election restriction. -/
def UpToDate (R L : List E) : Prop :=
  lastTerm L < lastTerm R ∨ (lastTerm R = lastTerm L ∧ L.length ≤ R.length)

section Inv

variable (g : History N E)

/-- Every leader of a term in `(T, τ]` has the entries of leader `T` up to position `j`. -/
def Later (T τ j : Nat) : Prop :=
  ∀ U, T < U → U ≤ τ → Elected g U → Agree (g.hist U) (g.hist T) (j + 1)

/-- `l` holds leader `T`'s log up to position `j` and nothing from an older term above it. -/
def Holds (T j : Nat) (l : List E) : Prop :=
  Agree l (g.hist T) (j + 1) ∧ ∀ k e, j ≤ k → l[k]? = some e → T ≤ term e

/-- The first `c` entries of `l` are committed, by a commit point of a term `≤ τ`. -/
def KnownAt (τ : Nat) (l : List E) (c : Nat) : Prop :=
  c = 0 ∨ ∃ T j, g.cp T j ∧ c ≤ j + 1 ∧ T ≤ τ ∧ Agree l (g.hist T) c

/-- The first `c` entries of a replica's log are committed. -/
def Known (n : N) (c : Nat) : Prop := KnownAt g (g.termOf n) (g.full n) c

/-- The entry at position `k` of `l`, and the window of `l` below it down to `b`, come from the log
of the leader that made the entry. -/
def FromLeader (b τ : Nat) (l : List E) : Prop :=
  ∀ k e, b ≤ k → l[k]? = some e → 1 ≤ term e ∧ term e ≤ τ ∧ Elected g (term e) ∧
    ∀ i, b ≤ i → i ≤ k → l[i]? = (g.hist (term e))[i]?

/-- What holds of one replica. -/
structure ReplicaInv (n : N) : Prop where
  log_wf : FromLeader g (g.base n) (g.termOf n) (g.full n)
  base_known : Known g n (g.base n)
  leads : g.role n = .leader → g.leader (g.termOf n) = some n ∧ g.full n = g.hist (g.termOf n)
  /-- A candidate's log is the one it campaigned with, up to snapshots installed since. -/
  cand : g.role n = .candidate → g.leader (g.termOf n) ≠ some n ∧
    ∃ R b x T, g.camp n (g.termOf n) = some (R, b) ∧ x ≤ g.base n ∧
      (x = 0 ∨ ∃ j, g.cp T j ∧ x ≤ j + 1 ∧ T < g.termOf n) ∧ g.full n = splice (g.hist T) R x
  acked_wf : ∀ T j, g.acked n T j → T ≤ g.termOf n ∧ Elected g T ∧
    (∃ e, (g.hist T)[j]? = some e ∧ term e = T) ∧
    (Later g T (g.termOf n) j → Holds g T j (g.full n))

/-- A campaign starts from a log of earlier leaders' entries above a committed prefix. -/
def CampWf (n : N) (T : Nat) (R : List E) (b : Nat) : Prop :=
  1 ≤ T ∧ T ≤ g.termOf n ∧ b ≤ R.length ∧ FromLeader g b (T - 1) R ∧ KnownAt g (T - 1) R b

/-- A vote is for a campaign of the term; cast before the term had a leader, it kept the election
restriction. -/
def VoteWf (v : N) (T : Nat) (c : N) : Prop :=
  T ≤ g.termOf v ∧ ∃ R b, g.camp c T = some (R, b) ∧
    (g.leader T = none → ∃ L, g.voteLog v T = some L ∧ UpToDate R L)

/-- A leader campaigned, had a majority, and has only added entries of its own term since. -/
def LeaderRec [Fintype N] [DecidableEq N] (T : Nat) (n : N) : Prop :=
  ∃ R b own Q, g.camp n T = some (R, b) ∧ g.hist T = R ++ own ∧ (∀ e ∈ own, term e = T) ∧
    Majority Q ∧ ∀ v ∈ Q, g.vote v T = some n ∧ ∃ L, g.voteLog v T = some L ∧ UpToDate R L

/-- The inductive invariant. -/
structure Inv [Fintype N] [DecidableEq N] : Prop where
  hist_none : ∀ T, g.leader T = none → g.hist T = []
  /-- Leaders' logs are themselves made of leaders' entries: log matching. -/
  hist_wf : ∀ T, FromLeader g 0 T (g.hist T)
  leader_le : ∀ T n, g.leader T = some n → T ≤ g.termOf n
  replica : ∀ n, ReplicaInv g n
  camp_wf : ∀ n T R b, g.camp n T = some (R, b) → CampWf g n T R b
  vote_wf : ∀ v T c, g.vote v T = some c → VoteWf g v T c
  voteLog_wf : ∀ v T L, g.voteLog v T = some L → ∃ c, g.vote v T = some c
  leader_rec : ∀ T n, g.leader T = some n → LeaderRec g T n
  acked_vote : ∀ m T j U L, g.acked m T j → T < U → g.voteLog m U = some L →
    Later g T (U - 1) j → Holds g T j L
  cp_wf : ∀ T j, g.cp T j → ∃ Q, Majority Q ∧ ∀ m ∈ Q, g.acked m T j

end Inv

/-! ## What the definitions give at once -/

variable {g : History N E} {T τ c k : Nat} {l : List E} {e : E}

section

omit [Termed E]

theorem Elected.ne_none (h : Elected g T) : g.leader T ≠ none := by
  obtain ⟨n, hn⟩ := h
  rw [hn]
  exact Option.some_ne_none n

theorem KnownAt.mono {τ' : Nat} (h : KnownAt g τ l c) (hτ : τ ≤ τ') : KnownAt g τ' l c := by
  rcases h with h0 | ⟨T, j, hcp, hc, hT, ha⟩
  · exact .inl h0
  · exact .inr ⟨T, j, hcp, hc, le_trans hT hτ, ha⟩

theorem KnownAt.le {c' : Nat} (h : KnownAt g τ l c) (hc : c' ≤ c) : KnownAt g τ l c' := by
  rcases h with h0 | ⟨T, j, hcp, hcj, hT, ha⟩
  · exact .inl (by omega)
  · exact .inr ⟨T, j, hcp, le_trans hc hcj, hT, ha.mono hc⟩

end

theorem FromLeader.mono {b b' τ' : Nat} (h : FromLeader g b τ l) (hb : b ≤ b') (hτ : τ ≤ τ') :
    FromLeader g b' τ' l := by
  intro k e hk he
  obtain ⟨h1, hle, hel, hag⟩ := h k e (hb.trans hk) he
  exact ⟨h1, le_trans hle hτ, hel, fun i hi hik => hag i (hb.trans hi) hik⟩

theorem lastTerm_eq (h : l[l.length - 1]? = some e) : lastTerm l = term e := by
  have hlast : l.getLast? = some e := by rw [List.getLast?_eq_getElem?]; exact h
  simp [lastTerm, hlast]

/-- A positive last term is that of a last entry. -/
theorem exists_last (h : 1 ≤ lastTerm l) :
    ∃ e, l[l.length - 1]? = some e ∧ term e = lastTerm l := by
  cases hl : l.getLast? with
  | none => simp [lastTerm, hl] at h
  | some e =>
    refine ⟨e, ?_, by simp [lastTerm, hl]⟩
    rw [← List.getLast?_eq_getElem?]
    exact hl

variable [Fintype N] [DecidableEq N] {g : History N E}

/-- A commit point is an entry of the term's own leader. -/
theorem Inv.cp_entry (h : Inv g) {j : Nat} (hcp : g.cp T j) :
    Elected g T ∧ ∃ e, (g.hist T)[j]? = some e ∧ term e = T := by
  obtain ⟨Q, hQ, hack⟩ := h.cp_wf T j hcp
  obtain ⟨v, hv, _⟩ := hQ.inter hQ
  obtain ⟨_, hel, he, _⟩ := (h.replica v).acked_wf T j (hack v hv)
  exact ⟨hel, he⟩

theorem Inv.cp_lt_length (h : Inv g) {j : Nat} (hcp : g.cp T j) : j < (g.hist T).length := by
  obtain ⟨_, e, he, _⟩ := h.cp_entry hcp
  exact lt_length_of_getElem? he

/-- Two entries at one position made in one term are the same entry. -/
theorem Inv.hist_match (h : Inv g) (he : (g.hist T)[k]? = some e) :
    Agree (g.hist T) (g.hist (term e)) (k + 1) :=
  fun i hi => ((h.hist_wf T) k e (Nat.zero_le _) he).2.2.2 i (Nat.zero_le _) (by omega)

/-- Terms never go down along a leader's log. -/
theorem Inv.hist_mono (h : Inv g) {i : Nat} {f : E} (he : (g.hist T)[i]? = some e)
    (hf : (g.hist T)[k]? = some f) (hik : i ≤ k) : term e ≤ term f := by
  have hag := h.hist_match hf i (by omega)
  rw [he] at hag
  exact ((h.hist_wf (term f)) i e (Nat.zero_le _) hag.symm).2.1

theorem Inv.hist_term_le (h : Inv g) (he : (g.hist T)[k]? = some e) :
    term e ≤ T :=
  ((h.hist_wf T) k e (Nat.zero_le _) he).2.1

/-- What a replica knows to be committed, it holds. -/
theorem Inv.known_le_length (h : Inv g) (hk : KnownAt g τ l c) :
    c ≤ l.length := by
  rcases hk with rfl | ⟨T, j, hcp, hc, _, ha⟩
  · exact Nat.zero_le _
  · have := h.cp_lt_length hcp
    exact ha.le_length (by omega)

end MxKeys.Consensus
