/-
# MxKeys.Consensus.Completeness — a committed prefix is in the log of every later leader.

The argument is by strong induction on the later term `U`.  A majority acknowledged the commit point
in term `T`, a majority voted for the campaign in `U`, and a replica `v` is in both.  By the
induction hypothesis every leader strictly between has the committed prefix, so the proviso of
`acked_vote` is met and the log `v` voted with holds it too.  The election restriction then carries
it onto the campaign's log: either that log ends in a term whose leader has the prefix, or it ends
in term `T` itself and is long enough.

Compaction adds one step.  Below its compaction boundary the campaign's log is known to be some
committed prefix, of a commit point the induction also applies to; so the log is, from the first
position on, a prefix of the log of the leader that made its last entry (`camp_prefix`).
-/
import MxKeys.Consensus.History

namespace MxKeys.Consensus

open MxKeys.Lib
open Termed (term)

variable {N E : Type*} [Termed E] [Fintype N] [DecidableEq N] {g : History N E}

/-- A campaign in term `U` with log `R` that a majority voted for. -/
def Backed (g : History N E) (U : Nat) (R : List E) (b : Nat) : Prop :=
  (∃ n, g.camp n U = some (R, b)) ∧
    ∃ Q, Majority Q ∧ ∀ v ∈ Q, ∃ L, g.voteLog v U = some L ∧ UpToDate R L

/-- Leader completeness for one later term. -/
def CompleteAt (g : History N E) (U : Nat) : Prop :=
  Elected g U → ∀ T j, g.cp T j → T < U → Agree (g.hist U) (g.hist T) (j + 1)

variable {U b T j : Nat} {R : List E}

/-- The log of some voter reaches the commit point, and nothing above it there is older. -/
theorem Inv.voter_holds (h : Inv g) (ih : ∀ V, V < U → CompleteAt g V) (hb : Backed g U R b)
    (hcp : g.cp T j) (hTU : T < U) : ∃ L, Holds g T j L ∧ UpToDate R L := by
  obtain ⟨_, Q, hQ, hvotes⟩ := hb
  obtain ⟨P, hP, hack⟩ := h.cp_wf T j hcp
  obtain ⟨v, hvP, hvQ⟩ := hP.inter hQ
  obtain ⟨L, hL, hup⟩ := hvotes v hvQ
  refine ⟨L, h.acked_vote v T j U L (hack v hvP) hTU hL ?_, hup⟩
  intro V hTV hVU hel
  exact ih V (by omega) hel T j hcp hTV

/-- A log that holds the commit point ends in a term at least as high. -/
theorem Inv.holds_lastTerm (h : Inv g) (hcp : g.cp T j) {L : List E} (hL : Holds g T j L) :
    j < L.length ∧ T ≤ lastTerm L := by
  obtain ⟨_, e, he, hT⟩ := h.cp_entry hcp
  have hLj : L[j]? = some e := (hL.1 j (by omega)).trans he
  have hlt : j < L.length := lt_length_of_getElem? hLj
  obtain ⟨f, hf⟩ := exists_getElem? (l := L) (k := L.length - 1) (by omega)
  refine ⟨hlt, ?_⟩
  rw [lastTerm_eq hf]
  exact hL.2 _ f (by omega) hf

/-- The campaign's log ends in a term at least as high as any commit point below it. -/
theorem Inv.backed_lastTerm (h : Inv g) (ih : ∀ V, V < U → CompleteAt g V) (hb : Backed g U R b)
    (hcp : g.cp T j) (hTU : T < U) : T ≤ lastTerm R := by
  obtain ⟨L, hL, hup⟩ := h.voter_holds ih hb hcp hTU
  have hT := (h.holds_lastTerm hcp hL).2
  rcases hup with hlt | ⟨heq, _⟩ <;> omega

/-- **The campaign's log is a prefix of the log of the leader that made its last entry.** -/
theorem Inv.camp_prefix_aux (h : Inv g) (ih : ∀ V, V < U → CompleteAt g V) (hb : Backed g U R b)
    {e : E} (he : R[R.length - 1]? = some e) :
    term e < U ∧ 1 ≤ term e ∧ Elected g (term e) ∧ Agree R (g.hist (term e)) R.length := by
  obtain ⟨⟨n, hcamp⟩, _⟩ := id hb
  obtain ⟨h1U, _, hbR, hwin, hknown⟩ := h.camp_wf n U R b hcamp
  have hpos : 0 < R.length := by
    have := lt_length_of_getElem? he
    omega
  rcases lt_or_ge b R.length with hlt | hge
  · -- the last entry is above the boundary: its leader's log covers the window
    obtain ⟨h1, hle, hel, hag⟩ := hwin (R.length - 1) e (by omega) he
    refine ⟨by omega, h1, hel, ?_⟩
    intro k hk
    rcases lt_or_ge k b with hkb | hkb
    · -- below the boundary the content is that of a commit point, which that leader has
      rcases hknown with h0 | ⟨T, j, hcp, hbj, hTU, ha⟩
      · omega
      · have hlast := h.backed_lastTerm ih hb hcp (by omega)
        rw [lastTerm_eq he] at hlast
        rw [ha k hkb]
        rcases lt_or_ge T (term e) with hT | hT
        · exact (ih (term e) (by omega) hel T j hcp hT k (by omega)).symm
        · rw [le_antisymm hT hlast]
    · exact hag k hkb (by omega)
  · -- everything is below the boundary, so the last entry is an entry of a commit point's leader
    have hbeq : b = R.length := hbR.antisymm hge
    rcases hknown with h0 | ⟨T, j, hcp, hbj, hTU, ha⟩
    · omega
    · have heT : (g.hist T)[R.length - 1]? = some e := by rw [← ha _ (by omega)]; exact he
      obtain ⟨h1, hle, hel, _⟩ := h.hist_wf T _ e (Nat.zero_le _) heT
      refine ⟨by omega, h1, hel, ?_⟩
      have hm := h.hist_match heT
      rw [Nat.sub_add_cancel hpos] at hm
      exact Agree.trans (ha.mono (by omega)) hm

/-- A campaign that a majority voted for has every commit point of an earlier term. -/
theorem Inv.backed_complete_aux (h : Inv g) (ih : ∀ V, V < U → CompleteAt g V) (hb : Backed g U R b)
    (hcp : g.cp T j) (hTU : T < U) : Agree R (g.hist T) (j + 1) := by
  obtain ⟨hTel, e₀, he₀, hT₀⟩ := h.cp_entry hcp
  obtain ⟨L, hL, hup⟩ := h.voter_holds ih hb hcp hTU
  obtain ⟨hjL, hLT⟩ := h.holds_lastTerm hcp hL
  have hRT := h.backed_lastTerm ih hb hcp hTU
  have hT1 : 1 ≤ T := by
    rw [← hT₀]
    exact ((h.hist_wf T) j e₀ (Nat.zero_le _) he₀).1
  obtain ⟨e, he, hlast⟩ := exists_last (l := R) (by omega)
  obtain ⟨heU, _, hel, hpre⟩ := h.camp_prefix_aux ih hb he
  rw [← hlast] at hRT
  rcases lt_or_ge T (term e) with hgt | hle
  · -- the log ends in a later term, whose leader has the commit point
    have hag := ih (term e) heU hel T j hcp hgt
    have hlen : j < R.length := by
      by_contra hshort
      -- the last entry would sit among positions of leader `T`, whose terms are at most `T`
      have hlt := lt_length_of_getElem? he
      have h1 : (g.hist T)[R.length - 1]? = some e := by
        rw [← hag _ (by omega), ← hpre _ (by omega)]
        exact he
      have := h.hist_term_le h1
      omega
    intro k hk
    rw [hpre k (by omega), hag k hk]
  · -- the log ends in term `T` itself, and is at least as long as the voter's
    have heq : term e = T := hle.antisymm hRT
    have hlen : j < R.length := by
      rcases hup with hlt | ⟨_, hlen⟩ <;> omega
    intro k hk
    rw [hpre k (by omega), heq]

/-- **Leader completeness.**  Every leader of a later term has every commit point. -/
theorem Inv.complete (h : Inv g) (U : Nat) : CompleteAt g U := by
  induction U using Nat.strong_induction_on with
  | _ U ih =>
    intro hel T j hcp hTU
    obtain ⟨n, hn⟩ := hel
    obtain ⟨R, b, own, Q, hcamp, hhist, _, hQ, hvotes⟩ := h.leader_rec U n hn
    have hb : Backed g U R b := ⟨⟨n, hcamp⟩, Q, hQ, fun v hv => (hvotes v hv).2⟩
    have hag := h.backed_complete_aux ih hb hcp hTU
    have hlen := hag.le_length (h.cp_lt_length hcp)
    rw [hhist]
    exact (agree_append R own hlen).trans hag

theorem Inv.camp_prefix (h : Inv g) (hb : Backed g U R b) {e : E} (he : R[R.length - 1]? = some e) :
    term e < U ∧ 1 ≤ term e ∧ Elected g (term e) ∧ Agree R (g.hist (term e)) R.length :=
  h.camp_prefix_aux (fun V _ => h.complete V) hb he

theorem Inv.backed_complete (h : Inv g) (hb : Backed g U R b) (hcp : g.cp T j) (hTU : T < U) :
    Agree R (g.hist T) (j + 1) :=
  h.backed_complete_aux (fun V _ => h.complete V) hb hcp hTU

/-- The log of any leader of term `≥ T` has the commit points of term `T`. -/
theorem Inv.complete_le (h : Inv g) (hcp : g.cp T j) (hTU : T ≤ U) (hel : Elected g U) :
    Agree (g.hist U) (g.hist T) (j + 1) := by
  rcases lt_or_ge T U with hlt | hge
  · exact h.complete U hel T j hcp hlt
  · rw [le_antisymm hTU hge]
    exact Agree.rfl' _ _

/-- **Two commit points agree** wherever both reach. -/
theorem Inv.cp_agree (h : Inv g) {T' j' c : Nat} (hcp : g.cp T j) (hcp' : g.cp T' j')
    (hc : c ≤ j + 1) (hc' : c ≤ j' + 1) : Agree (g.hist T) (g.hist T') c := by
  rcases le_total T T' with hle | hle
  · exact ((h.complete_le hcp hle (h.cp_entry hcp').1).mono hc).symm
  · exact (h.complete_le hcp' hle (h.cp_entry hcp).1).mono hc'

/-- What a replica of term `T` knows to be committed is in the log of leader `T`. -/
theorem Inv.known_agree_leader (h : Inv g) {τ c : Nat} {l : List E} (hk : KnownAt g τ l c)
    (hτ : τ ≤ T) (hel : Elected g T) : Agree l (g.hist T) c := by
  rcases hk with rfl | ⟨T₀, j, hcp, hc, hT₀, ha⟩
  · exact Agree.zero _ _
  · exact ha.trans ((h.complete_le hcp (hT₀.trans hτ) hel).mono hc).symm

end MxKeys.Consensus
