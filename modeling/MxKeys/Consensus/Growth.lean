/-
# MxKeys.Consensus.Growth — histories only grow, and what that preserves.

Every event of the protocol adds to the history and takes nothing back: terms rise, a term's leader
stays, a leader's log gains entries of its own term only.  `Grows` says so once.  Each clause of the
invariant then transports along it, so that the proof for an event only has to look at the replica
and the term the event touches.

The direction that is not obvious is `Grows.later`: the proviso "every later leader has the entry"
read in the *new* history gives it in the old one.  A leader that gains the entry only now would
gain it as an entry of its own, higher term, which the entry is not.
-/
import MxKeys.Consensus.Completeness

namespace MxKeys.Consensus

open MxKeys.Lib
open Termed (term)
open List

variable {N E : Type*} [Termed E]

/-- `g'` extends `g`. -/
structure Grows (g g' : History N E) : Prop where
  termOf : ∀ n, g.termOf n ≤ g'.termOf n
  leader : ∀ T n, g.leader T = some n → g'.leader T = some n
  hist : ∀ T, g.hist T <+: g'.hist T
  /-- A leader adds entries of its own term only. -/
  hist_new : ∀ T k e, Elected g T → (g.hist T).length ≤ k → (g'.hist T)[k]? = some e → term e = T
  vote : ∀ v T c, g.vote v T = some c → g'.vote v T = some c
  voteLog : ∀ v T L, g.voteLog v T = some L → g'.voteLog v T = some L
  camp : ∀ n T c, g.camp n T = some c → g'.camp n T = some c
  acked : ∀ m T j, g.acked m T j → g'.acked m T j
  cp : ∀ T j, g.cp T j → g'.cp T j

/-- The event leaves replica `n` as it is. -/
structure Untouched (g g' : History N E) (n : N) : Prop where
  termOf : g'.termOf n = g.termOf n
  role : g'.role n = g.role n
  full : g'.full n = g.full n
  base : g'.base n = g.base n
  acked : ∀ T j, g'.acked n T j → g.acked n T j

variable {g g' : History N E} {T τ j : Nat} {l : List E} {n m : N}

theorem Grows.refl (g : History N E) : Grows g g where
  termOf := fun _ => le_refl _
  leader := fun _ _ h => h
  hist := fun _ => prefix_rfl
  hist_new := by
    intro T k e _ hk he
    exact absurd (lt_length_of_getElem? he) (by omega)
  vote := fun _ _ _ h => h
  voteLog := fun _ _ _ h => h
  camp := fun _ _ _ h => h
  acked := fun _ _ _ h => h
  cp := fun _ _ h => h

theorem Grows.trans {g'' : History N E} (gr : Grows g g') (gr' : Grows g' g'') : Grows g g'' where
  termOf := fun n => le_trans (gr.termOf n) (gr'.termOf n)
  leader := fun T n h => gr'.leader T n (gr.leader T n h)
  hist := fun T => (gr.hist T).trans (gr'.hist T)
  hist_new := by
    intro T k e hel hk he
    rcases lt_or_ge k (g'.hist T).length with hlt | hge
    · refine gr.hist_new T k e hel hk ?_
      rw [agree_of_isPrefix (gr'.hist T) le_rfl k hlt]
      exact he
    · exact gr'.hist_new T k e (hel.imp fun n hn => gr.leader T n hn) hge he
  vote := fun v T c h => gr'.vote v T c (gr.vote v T c h)
  voteLog := fun v T L h => gr'.voteLog v T L (gr.voteLog v T L h)
  camp := fun n T c h => gr'.camp n T c (gr.camp n T c h)
  acked := fun m T j h => gr'.acked m T j (gr.acked m T j h)
  cp := fun T j h => gr'.cp T j (gr.cp T j h)

section Grows

variable (gr : Grows g g')
include gr

theorem Grows.elected (h : Elected g T) : Elected g' T :=
  h.imp fun n hn => gr.leader T n hn

theorem Grows.agree {c : Nat} (hc : c ≤ (g.hist T).length) : Agree (g'.hist T) (g.hist T) c :=
  (agree_of_isPrefix (gr.hist T) hc).symm

/-! ## Statements about logs -/

theorem Grows.fromLeader {b : Nat} (h : FromLeader g b τ l) : FromLeader g' b τ l := by
  intro k e hk he
  obtain ⟨h1, hle, hel, hag⟩ := h k e hk he
  refine ⟨h1, hle, gr.elected hel, ?_⟩
  intro i hi hik
  have hlt := lt_length_of_getElem? he
  obtain ⟨f, hf⟩ := exists_getElem? (l := l) (k := i) (by omega)
  rw [hf, getElem?_of_isPrefix (gr.hist _) ((hag i hi hik).symm.trans hf)]

theorem Grows.holds (hj : j < (g.hist T).length) (h : Holds g T j l) : Holds g' T j l :=
  ⟨h.1.trans (gr.agree (by omega)).symm, h.2⟩

variable [Fintype N] [DecidableEq N]

theorem Grows.knownAt (h : Inv g) {c : Nat} (hk : KnownAt g τ l c) : KnownAt g' τ l c := by
  rcases hk with h0 | ⟨T, j, hcp, hc, hT, ha⟩
  · exact .inl h0
  · have hlen := h.cp_lt_length hcp
    exact .inr ⟨T, j, gr.cp T j hcp, hc, hT, ha.trans (gr.agree (by omega)).symm⟩

/-- **The proviso of an acknowledgement goes backwards along a growing history.** -/
theorem Grows.later (h : Inv g) {τ' : Nat} (hj : j < (g.hist T).length)
    (hτ : τ ≤ τ') (hl : Later g' T τ' j) : Later g T τ j := by
  intro U hTU hUτ hel
  have hag := hl U hTU (by omega) (gr.elected hel)
  have hlen : j < (g.hist U).length := by
    by_contra hshort
    obtain ⟨e, he⟩ := exists_getElem? hj
    have heU : (g'.hist U)[j]? = some e := by
      rw [hag j (by omega)]
      exact getElem?_of_isPrefix (gr.hist T) he
    have h1 := gr.hist_new U j e hel (by omega) heU
    have h2 := h.hist_term_le he
    omega
  intro k hk
  rw [← gr.agree (T := U) (c := j + 1) (by omega) k hk, hag k hk,
    gr.agree (T := T) (c := j + 1) (by omega) k hk]

/-! ## Clauses of the invariant -/

theorem Grows.hist_wf (h : Inv g) (hel : Elected g T) : FromLeader g' 0 T (g'.hist T) := by
  intro k e hk he
  rcases lt_or_ge k (g.hist T).length with hlt | hge
  · have he' : (g.hist T)[k]? = some e := by rw [← gr.agree le_rfl k hlt]; exact he
    obtain ⟨h1, hle, hel', hag⟩ := gr.fromLeader (h.hist_wf T) k e hk he'
    refine ⟨h1, hle, hel', fun i hi hik => ?_⟩
    rw [gr.agree le_rfl i (by omega)]
    exact hag i hi hik
  · have hT := gr.hist_new T k e hel hge he
    obtain ⟨n, hn⟩ := hel
    obtain ⟨R, b, _, _, hcamp, _⟩ := h.leader_rec T n hn
    have h1 := (h.camp_wf n T R b hcamp).1
    rw [hT]
    exact ⟨h1, le_refl _, ⟨n, gr.leader T n hn⟩, fun _ _ _ => rfl⟩

theorem Grows.campWf (h : Inv g) {R : List E} {b : Nat}
    (hc : g.camp n T = some (R, b)) : CampWf g' n T R b := by
  obtain ⟨h1, hT, hb, hwf, hk⟩ := h.camp_wf n T R b hc
  exact ⟨h1, le_trans hT (gr.termOf n), hb, gr.fromLeader hwf, gr.knownAt h hk⟩

theorem Grows.voteWf (h : Inv g) {v : N} {c : N} (hv : g.vote v T = some c) : VoteWf g' v T c := by
  obtain ⟨hT, R, b, hcamp, hlog⟩ := h.vote_wf v T c hv
  refine ⟨hT.trans (gr.termOf v), R, b, gr.camp _ _ _ hcamp, ?_⟩
  intro hnone
  have hold : g.leader T = none := by
    cases hl : g.leader T with
    | none => rfl
    | some n => rw [gr.leader T n hl] at hnone; cases hnone
  obtain ⟨L, hL, hup⟩ := hlog hold
  exact ⟨L, gr.voteLog _ _ _ hL, hup⟩

theorem Grows.leaderRec (h : Inv g) (hn : g.leader T = some n) : LeaderRec g' T n := by
  obtain ⟨R, b, own, Q, hcamp, hhist, hown, hQ, hvotes⟩ := h.leader_rec T n hn
  obtain ⟨new, hnew⟩ := gr.hist T
  refine ⟨R, b, own ++ new, Q, gr.camp _ _ _ hcamp, ?_, ?_, hQ, ?_⟩
  · rw [← hnew, hhist, append_assoc]
  · intro e he
    rcases mem_append.1 he with he | he
    · exact hown e he
    · obtain ⟨k, hk, rfl⟩ := getElem_of_mem he
      refine gr.hist_new T ((g.hist T).length + k) _ ⟨n, hn⟩ (by omega) ?_
      rw [← hnew, getElem?_append_right (by omega), Nat.add_sub_cancel_left,
        getElem?_eq_getElem hk]
  · intro v hv
    obtain ⟨hvote, L, hL, hup⟩ := hvotes v hv
    exact ⟨gr.vote _ _ _ hvote, L, gr.voteLog _ _ _ hL, hup⟩

end Grows

variable [Fintype N] [DecidableEq N]

theorem Inv.acked_lt_length (h : Inv g) (ha : g.acked m T j) :
    j < (g.hist T).length := by
  obtain ⟨_, _, ⟨e, he, _⟩, _⟩ := (h.replica m).acked_wf T j ha
  exact lt_length_of_getElem? he

theorem Grows.ackedVote (gr : Grows g g') (h : Inv g) {U : Nat} {L : List E} (ha : g.acked m T j)
    (hTU : T < U) (hL : g.voteLog m U = some L) (hl : Later g' T (U - 1) j) : Holds g' T j L :=
  gr.holds (h.acked_lt_length ha)
    (h.acked_vote m T j U L ha hTU hL (gr.later h (h.acked_lt_length ha) le_rfl hl))

/-- An old acknowledgement survives if the replica's new log holds what its old log held. -/
theorem Grows.ackedWf (gr : Grows g g') (h : Inv g) (ha : g.acked m T j)
    (hfull : Later g' T (g'.termOf m) j → Holds g T j (g.full m) → Holds g' T j (g'.full m)) :
    T ≤ g'.termOf m ∧ Elected g' T ∧ (∃ e, (g'.hist T)[j]? = some e ∧ term e = T) ∧
      (Later g' T (g'.termOf m) j → Holds g' T j (g'.full m)) := by
  obtain ⟨hT, hel, ⟨e, he, hte⟩, hholds⟩ := (h.replica m).acked_wf T j ha
  refine ⟨hT.trans (gr.termOf m), gr.elected hel,
    ⟨e, getElem?_of_isPrefix (gr.hist T) he, hte⟩, fun hl => hfull hl (hholds ?_)⟩
  exact gr.later h (lt_length_of_getElem? he) (gr.termOf m) hl

theorem Grows.splice_eq (gr : Grows g g') (h : Inv g) {x : Nat} (R : List E)
    (hx : x = 0 ∨ ∃ j, g.cp T j ∧ x ≤ j + 1) :
    splice (g'.hist T) R x = splice (g.hist T) R x := by
  have hlen : x ≤ (g.hist T).length := by
    rcases hx with rfl | ⟨j, hcp, hxj⟩
    · exact Nat.zero_le _
    · have := h.cp_lt_length hcp
      omega
  obtain ⟨new, hnew⟩ := gr.hist T
  rw [splice, splice, ← hnew, take_append_of_le_length hlen]

/-- **A replica the event does not touch keeps its invariant.** -/
theorem Grows.replica (gr : Grows g g') (h : Inv g) (hu : Untouched g g' n)
    (hlead : g.role n = .leader → g'.hist (g.termOf n) = g.hist (g.termOf n))
    (hcand : g.role n = .candidate → g'.leader (g.termOf n) = some n →
      g.leader (g.termOf n) = some n) : ReplicaInv g' n := by
  obtain ⟨hterm, hrole, hfull, hbase, hacked⟩ := hu
  obtain ⟨hlog, hknown, hleads, hcandOld, _⟩ := h.replica n
  refine ⟨?_, ?_, ?_, ?_, ?_⟩
  · rw [hterm, hfull, hbase]
    exact gr.fromLeader hlog
  · rw [Known, hterm, hfull, hbase]
    exact gr.knownAt h hknown
  · intro hr
    rw [hrole] at hr
    rw [hterm, hfull, hlead hr]
    exact ⟨gr.leader _ _ (hleads hr).1, (hleads hr).2⟩
  · intro hr
    rw [hrole] at hr
    obtain ⟨hne, R, b, x, T, hcamp, hxb, hx, heq⟩ := hcandOld hr
    rw [hterm, hfull, hbase]
    have hx' : x = 0 ∨ ∃ j, g.cp T j ∧ x ≤ j + 1 :=
      hx.imp_right fun ⟨j, hcp, hxj, _⟩ => ⟨j, hcp, hxj⟩
    refine ⟨fun hl => hne (hcand hr hl), R, b, x, T, gr.camp _ _ _ hcamp, hxb, ?_, ?_⟩
    · exact hx.imp_right fun ⟨j, hcp, hxj, hT⟩ => ⟨j, gr.cp _ _ hcp, hxj, hT⟩
    · rw [gr.splice_eq h R hx']
      exact heq
  · intro T j ha
    refine gr.ackedWf h (hacked T j ha) fun _ hh => ?_
    rw [hfull]
    exact gr.holds (h.acked_lt_length (hacked T j ha)) hh

end MxKeys.Consensus
