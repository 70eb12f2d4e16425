/-
# MxKeys.Consensus.Voting — terms, campaigns, votes and elections keep the invariant.

A replica sees a higher term or steps down (`lower`), campaigns, grants a vote, is elected.  Every
event comes with `Grows` and with the preservation of `Inv` under the guard that the protocol checks
before taking it.  A protocol refines this library when each of its steps is a sequence of these
events and of those of `MxKeys.Consensus.Replicating`.
-/
import MxKeys.Consensus.Growth

namespace MxKeys.Consensus

open MxKeys.Lib
open Termed (term)
open Option Function

variable {N E : Type*} [Termed E] [Fintype N] [DecidableEq N] {g : History N E}

/-- Set the value of a two-argument map at one point. -/
def set2 {α β γ : Type*} [DecidableEq α] [DecidableEq β] (f : α → β → γ) (a : α) (b : β) (x : γ) :
    α → β → γ :=
  fun a' b' => if a' = a ∧ b' = b then x else f a' b'

variable {α β γ : Type*} {v : N} {T : Nat}

theorem set2_same [DecidableEq α] [DecidableEq β] (f : α → β → γ) (a : α) (b : β) (x : γ) :
    set2 f a b x a b = x := by simp [set2]

theorem set2_other [DecidableEq α] [DecidableEq β] {f : α → β → γ} {a a' : α} {b b' : β} {x : γ}
    (h : ¬(a' = a ∧ b' = b)) : set2 f a b x a' b' = f a' b' := by
  simp [set2, h]

/-- A map to options that is only set where it was not keeps its values. -/
theorem set2_keeps [DecidableEq α] [DecidableEq β] {f : α → β → Option γ} {a a' : α} {b b' : β}
    {x : Option γ} {y : γ} (hnone : f a b = none) (h : f a' b' = some y) :
    set2 f a b x a' b' = some y := by
  rw [set2_other]
  · exact h
  · rintro ⟨rfl, rfl⟩
    rw [hnone] at h
    cases h

theorem UpToDate.refl (L : List E) : UpToDate L L := .inr ⟨rfl, le_refl _⟩

/-- Nothing is recorded for terms a replica has not reached. -/
theorem Inv.vote_none (h : Inv g) (hT : g.termOf v < T) : g.vote v T = none := by
  cases hv : g.vote v T with
  | none => rfl
  | some c => exact absurd (h.vote_wf v T c hv).1 (by omega)

theorem Inv.camp_none (h : Inv g) (hT : g.termOf v < T) : g.camp v T = none := by
  cases hv : g.camp v T with
  | none => rfl
  | some c => exact absurd (h.camp_wf v T c.1 c.2 hv).2.1 (by omega)

theorem Inv.voteLog_none (h : Inv g) (hv : g.vote v T = none) :
    g.voteLog v T = none := by
  cases hL : g.voteLog v T with
  | none => rfl
  | some L =>
    obtain ⟨c, hc⟩ := h.voteLog_wf v T L hL
    rw [hv] at hc
    cases hc

/-! ## The start -/

/-- Nothing has happened. -/
def History.empty : History N E where
  termOf := fun _ => 0
  role := fun _ => .follower
  full := fun _ => []
  base := fun _ => 0
  vote := fun _ _ => none
  voteLog := fun _ _ => none
  camp := fun _ _ => none
  leader := fun _ => none
  hist := fun _ => []
  acked := fun _ _ _ => False
  cp := fun _ _ => False

theorem Inv.empty : Inv (History.empty : History N E) where
  hist_none := fun _ _ => rfl
  hist_wf := by
    intro T k e _ he
    simp [History.empty] at he
  leader_le := by
    intro T n hn
    cases hn
  replica := by
    intro n
    refine ⟨?_, .inl rfl, fun hr => (by cases hr), fun hr => (by cases hr), ?_⟩
    · intro k e _ he
      simp [History.empty] at he
    · intro T j ha
      exact ha.elim
  camp_wf := by
    intro n T R b hc
    cases hc
  vote_wf := by
    intro v T c hv
    cases hv
  voteLog_wf := by
    intro v T L hL
    cases hL
  leader_rec := by
    intro T n hn
    cases hn
  acked_vote := fun _ _ _ _ _ ha => ha.elim
  cp_wf := fun _ _ hcp => hcp.elim

/-! ## Seeing a higher term, stepping down -/

/-- Replica `n` moves to term `T` as a follower. -/
def History.lower (g : History N E) (n : N) (T : Nat) : History N E :=
  { g with
    termOf := update g.termOf n T
    role := update g.role n .follower }

omit [Fintype N] in
theorem grows_lower {n : N} (hT : g.termOf n ≤ T) : Grows g (g.lower n T) :=
  { Grows.refl g with
    termOf := by
      intro m
      by_cases hm : m = n
      · subst hm
        simpa [History.lower] using hT
      · simp [History.lower, hm] }

theorem Inv.lower (h : Inv g) {n : N} (hT : g.termOf n ≤ T) : Inv (g.lower n T) := by
  have gr := grows_lower hT
  have hterm : (g.lower n T).termOf n = T := by simp [History.lower]
  have hrole : (g.lower n T).role n = .follower := by simp [History.lower]
  refine ⟨h.hist_none, h.hist_wf, ?_, ?_, fun _ _ _ _ hc => gr.campWf h hc,
    fun _ _ _ hv => gr.voteWf h hv, h.voteLog_wf, h.leader_rec, h.acked_vote, h.cp_wf⟩
  · intro U m hm
    exact (h.leader_le U m hm).trans (gr.termOf m)
  · intro m
    by_cases hm : m = n
    · subst hm
      obtain ⟨hlog, hknown, _, _, _⟩ := h.replica m
      refine ⟨?_, ?_, ?_, ?_, ?_⟩
      · rw [hterm]
        exact gr.fromLeader (hlog.mono le_rfl hT)
      · rw [Known, hterm]
        exact gr.knownAt h (KnownAt.mono hknown hT)
      · intro hr
        rw [hrole] at hr
        cases hr
      · intro hr
        rw [hrole] at hr
        cases hr
      · intro U j ha
        exact gr.ackedWf h ha fun _ hh => gr.holds (h.acked_lt_length ha) hh
    · refine gr.replica h ⟨?_, ?_, rfl, rfl, fun _ _ ha => ha⟩ (fun _ => rfl) (fun _ hl => hl)
      · simp [History.lower, hm]
      · simp [History.lower, hm]

/-! ## Campaigns and votes -/

/-- Replica `n` enters the next term as a candidate and votes for itself. -/
def History.campaign (g : History N E) (n : N) : History N E :=
  { g with
    termOf := update g.termOf n (g.termOf n + 1)
    role := update g.role n .candidate
    vote := set2 g.vote n (g.termOf n + 1) (some n)
    voteLog := set2 g.voteLog n (g.termOf n + 1) (some (g.full n))
    camp := set2 g.camp n (g.termOf n + 1) (some (g.full n, g.base n)) }

theorem grows_campaign (h : Inv g) (n : N) : Grows g (g.campaign n) :=
  have hv := h.vote_none (Nat.lt_succ_self (g.termOf n))
  { Grows.refl g with
    termOf := by
      intro m
      by_cases hm : m = n
      · subst hm
        simp [History.campaign]
      · simp [History.campaign, hm]
    vote := fun _ _ _ hc => set2_keeps hv hc
    voteLog := fun _ _ _ hL => set2_keeps (h.voteLog_none hv) hL
    camp := fun _ _ _ hc => set2_keeps (h.camp_none (Nat.lt_succ_self _)) hc }

/-- The log a replica campaigns with. -/
theorem Inv.campaign_campWf (h : Inv g) (n : N) :
    CampWf (g.campaign n) n (g.termOf n + 1) (g.full n) (g.base n) := by
  have gr := grows_campaign h n
  obtain ⟨hlog, hknown, _⟩ := h.replica n
  refine ⟨by omega, by simp [History.campaign], h.known_le_length hknown, ?_, ?_⟩
  · exact gr.fromLeader hlog
  · exact gr.knownAt h hknown

theorem Inv.campaign (h : Inv g) (n : N) : Inv (g.campaign n) := by
  have gr := grows_campaign h n
  have hterm : (g.campaign n).termOf n = g.termOf n + 1 := by simp [History.campaign]
  have hrole : (g.campaign n).role n = .candidate := by simp [History.campaign]
  have hcamp : (g.campaign n).camp n (g.termOf n + 1) = some (g.full n, g.base n) :=
    set2_same _ _ _ _
  have hvlog : (g.campaign n).voteLog n (g.termOf n + 1) = some (g.full n) := set2_same _ _ _ _
  refine ⟨h.hist_none, h.hist_wf, ?_, ?_, ?_, ?_, ?_, fun _ _ hn => gr.leaderRec h hn, ?_,
    h.cp_wf⟩
  · intro U m hm
    exact (h.leader_le U m hm).trans (gr.termOf m)
  · intro m
    by_cases hm : m = n
    · subst hm
      obtain ⟨hlog, hknown, _⟩ := h.replica m
      refine ⟨?_, ?_, ?_, ?_, ?_⟩
      · rw [hterm]
        exact gr.fromLeader (hlog.mono le_rfl (Nat.le_succ _))
      · rw [Known, hterm]
        exact gr.knownAt h (KnownAt.mono hknown (Nat.le_succ _))
      · intro hr
        rw [hrole] at hr
        cases hr
      · intro _
        rw [hterm]
        refine ⟨fun hl => ?_, g.full m, g.base m, 0, 0, hcamp, Nat.zero_le _, .inl rfl,
          (splice_zero _ _).symm⟩
        have := h.leader_le _ m hl
        omega
      · intro U j ha
        exact gr.ackedWf h ha fun _ hh => gr.holds (h.acked_lt_length ha) hh
    · refine gr.replica h ⟨?_, ?_, rfl, rfl, fun _ _ ha => ha⟩ (fun _ => rfl) (fun _ hl => hl)
      · simp [History.campaign, hm]
      · simp [History.campaign, hm]
  · intro m U R b hc
    by_cases hm : m = n ∧ U = g.termOf n + 1
    · obtain ⟨rfl, rfl⟩ := hm
      rw [hcamp] at hc
      cases hc
      exact h.campaign_campWf m
    · exact gr.campWf h ((set2_other hm).symm.trans hc)
  · intro v U c hv
    by_cases hm : v = n ∧ U = g.termOf n + 1
    · obtain ⟨rfl, rfl⟩ := hm
      have hc : c = v := some.inj (hv.symm.trans (set2_same _ _ _ _))
      subst hc
      exact ⟨by rw [hterm], _, _, hcamp, fun _ => ⟨_, hvlog, UpToDate.refl _⟩⟩
    · exact gr.voteWf h ((set2_other hm).symm.trans hv)
  · intro v U L hL
    by_cases hm : v = n ∧ U = g.termOf n + 1
    · obtain ⟨rfl, rfl⟩ := hm
      exact ⟨v, set2_same _ _ _ _⟩
    · obtain ⟨c, hc⟩ := h.voteLog_wf v U L ((set2_other hm).symm.trans hL)
      exact ⟨c, gr.vote _ _ _ hc⟩
  · intro m T j U L ha hTU hL hl
    by_cases hm : m = n ∧ U = g.termOf n + 1
    · -- the vote for itself: the log is the one its acknowledgements speak about
      obtain ⟨rfl, rfl⟩ := hm
      obtain rfl : L = g.full m := some.inj (hL.symm.trans hvlog)
      have hj := h.acked_lt_length ha
      exact gr.holds hj
        (((h.replica m).acked_wf T j ha).2.2.2 (gr.later h hj (by omega) hl))
    · exact gr.ackedVote h ha hTU ((set2_other hm).symm.trans hL) hl

/-- Replica `v` votes for `c` in its current term.  The log it held is recorded while the term has
no leader; a vote that comes after the election decides nothing. -/
def History.grant (g : History N E) (v c : N) : History N E :=
  { g with
    vote := set2 g.vote v (g.termOf v) (some c)
    voteLog := set2 g.voteLog v (g.termOf v)
      (match g.leader (g.termOf v) with | none => some (g.full v) | some _ => none) }

theorem grows_grant (h : Inv g) (c : N) (hv : g.vote v (g.termOf v) = none) :
    Grows g (g.grant v c) :=
  { Grows.refl g with
    vote := fun _ _ _ hc => set2_keeps hv hc
    voteLog := fun _ _ _ hL => set2_keeps (h.voteLog_none hv) hL }

theorem Inv.grant (h : Inv g) {c : N} {R : List E} {b : Nat} (hv : g.vote v (g.termOf v) = none)
    (hc : g.camp c (g.termOf v) = some (R, b)) (hup : UpToDate R (g.full v)) :
    Inv (g.grant v c) := by
  have gr := grows_grant h c hv
  have hvlog : (g.grant v c).voteLog v (g.termOf v) =
      match g.leader (g.termOf v) with | none => some (g.full v) | some _ => none :=
    set2_same _ _ _ _
  refine ⟨h.hist_none, h.hist_wf, h.leader_le, ?_, h.camp_wf, ?_, ?_,
    fun _ _ hn => gr.leaderRec h hn, ?_, h.cp_wf⟩
  · intro m
    exact gr.replica h ⟨rfl, rfl, rfl, rfl, fun _ _ ha => ha⟩ (fun _ => rfl) (fun _ hl => hl)
  · intro w U d hd
    by_cases hm : w = v ∧ U = g.termOf v
    · obtain ⟨rfl, rfl⟩ := hm
      obtain rfl : d = c := some.inj (hd.symm.trans (set2_same _ _ _ _))
      refine ⟨le_refl _, R, b, hc, fun hnone => ⟨g.full w, ?_, hup⟩⟩
      rw [hvlog]
      have hnone' : g.leader (g.termOf w) = none := hnone
      simp [hnone']
    · exact gr.voteWf h ((set2_other hm).symm.trans hd)
  · intro w U L hL
    by_cases hm : w = v ∧ U = g.termOf v
    · obtain ⟨rfl, rfl⟩ := hm
      exact ⟨c, set2_same _ _ _ _⟩
    · obtain ⟨d, hd⟩ := h.voteLog_wf w U L ((set2_other hm).symm.trans hL)
      exact ⟨d, gr.vote _ _ _ hd⟩
  · intro m T j U L ha hTU hL hl
    by_cases hm : m = v ∧ U = g.termOf v
    · obtain ⟨rfl, rfl⟩ := hm
      rw [hvlog] at hL
      cases hlead : g.leader (g.termOf m) with
      | some n => simp [hlead] at hL
      | none =>
        simp only [hlead, some.injEq] at hL
        subst hL
        -- no leader yet, so the proviso below the term covers the term as well
        have hj := h.acked_lt_length ha
        refine gr.holds hj (((h.replica m).acked_wf T j ha).2.2.2 ?_)
        intro V hTV hVU hel
        rcases lt_or_ge V (g.termOf m) with hlt | hge
        · exact gr.later h hj le_rfl hl V hTV (by omega) hel
        · obtain rfl : V = g.termOf m := hVU.antisymm hge
          exact absurd hlead hel.ne_none
    · exact gr.ackedVote h ha hTU ((set2_other hm).symm.trans hL) hl

/-! ## Elections -/

/-- Replica `n` becomes leader of its term. -/
def History.elect (g : History N E) (n : N) : History N E :=
  { g with
    role := update g.role n .leader
    leader := update g.leader (g.termOf n) (some n)
    hist := update g.hist (g.termOf n) (g.full n) }

section Elect

variable (h : Inv g) {n : N} (hrole : g.role n = .candidate) {Q : Finset N} (hQ : Majority Q)
  (hvotes : ∀ v ∈ Q, g.vote v (g.termOf n) = some n)

include h hrole hQ hvotes

/-- Nobody else was elected in the term. -/
theorem Inv.elect_fresh : g.leader (g.termOf n) = none := by
  cases hl : g.leader (g.termOf n) with
  | none => rfl
  | some m =>
    obtain ⟨_, _, _, P, _, _, _, hP, hback⟩ := h.leader_rec _ m hl
    obtain ⟨v, hvQ, hvP⟩ := hQ.inter hP
    have hmn : n = m := some.inj ((hvotes v hvQ).symm.trans (hback v hvP).1)
    subst hmn
    exact absurd hl ((h.replica n).cand hrole).1

/-- The log of the winner is the one it campaigned with: snapshots installed since brought nothing
that it did not have. -/
theorem Inv.elect_camp : ∃ b, g.camp n (g.termOf n) = some (g.full n, b) ∧
    Backed g (g.termOf n) (g.full n) b ∧
    ∀ v ∈ Q, g.vote v (g.termOf n) = some n ∧
      ∃ L, g.voteLog v (g.termOf n) = some L ∧ UpToDate (g.full n) L := by
  have hfresh := h.elect_fresh hrole hQ hvotes
  obtain ⟨_, R, b, x, T, hcamp, hxb, hx, hfull⟩ := (h.replica n).cand hrole
  have hback : ∀ v ∈ Q, g.vote v (g.termOf n) = some n ∧
      ∃ L, g.voteLog v (g.termOf n) = some L ∧ UpToDate R L := by
    intro v hv
    obtain ⟨_, R', b', hcamp', hlog⟩ := h.vote_wf v _ n (hvotes v hv)
    obtain ⟨rfl, rfl⟩ := Prod.mk.inj (some.inj (hcamp.symm.trans hcamp'))
    exact ⟨hvotes v hv, hlog hfresh⟩
  have hb : Backed g (g.termOf n) R b := ⟨⟨n, hcamp⟩, Q, hQ, fun v hv => (hback v hv).2⟩
  have heq : g.full n = R := by
    rcases hx with rfl | ⟨j, hcp, hxj, hT⟩
    · rw [hfull, splice_zero]
    · have hlen := h.cp_lt_length hcp
      rw [hfull]
      exact splice_eq_self (by omega) ((h.backed_complete hb hcp hT).mono hxj)
  rw [heq]
  exact ⟨b, hcamp, hb, hback⟩

theorem grows_elect : Grows g (g.elect n) :=
  have hfresh := h.elect_fresh hrole hQ hvotes
  { Grows.refl g with
    leader := by
      intro T m hm
      by_cases hT : T = g.termOf n
      · subst hT
        rw [hfresh] at hm
        cases hm
      · simpa [History.elect, hT] using hm
    hist := by
      intro T
      by_cases hT : T = g.termOf n
      · subst hT
        rw [h.hist_none _ hfresh]
        exact List.nil_prefix
      · simp [History.elect, hT]
    hist_new := by
      intro T k e hel hk he
      by_cases hT : T = g.termOf n
      · subst hT
        exact absurd hfresh hel.ne_none
      · have he' : (g.hist T)[k]? = some e := by simpa [History.elect, hT] using he
        have := lt_length_of_getElem? he'
        omega }

theorem Inv.elect : Inv (g.elect n) := by
  have gr := grows_elect h hrole hQ hvotes
  have hfresh := h.elect_fresh hrole hQ hvotes
  obtain ⟨b, hcamp, hb, hback⟩ := h.elect_camp hrole hQ hvotes
  have hlead : (g.elect n).leader (g.termOf n) = some n := by simp [History.elect]
  have hhist : (g.elect n).hist (g.termOf n) = g.full n := by simp [History.elect]
  refine ⟨?_, ?_, ?_, ?_, fun _ _ _ _ hc => gr.campWf h hc, fun _ _ _ hv => gr.voteWf h hv,
    h.voteLog_wf, ?_, fun _ _ _ _ _ ha hTU hL hl => gr.ackedVote h ha hTU hL hl, h.cp_wf⟩
  · intro T hT
    by_cases hTn : T = g.termOf n
    · subst hTn
      rw [hlead] at hT
      cases hT
    · have hT' : g.leader T = none := by simpa [History.elect, hTn] using hT
      simpa [History.elect, hTn] using h.hist_none T hT'
  · intro T
    by_cases hTn : T = g.termOf n
    · -- the winner's log is a prefix of the log of the leader that made its last entry
      subst hTn
      rw [hhist]
      intro k e _ he
      have hlt := lt_length_of_getElem? he
      obtain ⟨f, hf⟩ := exists_getElem? (l := g.full n) (k := (g.full n).length - 1) (by omega)
      obtain ⟨hfT, _, _, hpre⟩ := h.camp_prefix hb hf
      have he' : (g.hist (term f))[k]? = some e := by rw [← hpre k hlt]; exact he
      obtain ⟨h1, hle, hel, hag⟩ := gr.fromLeader (h.hist_wf (term f)) k e (Nat.zero_le _) he'
      refine ⟨h1, by omega, hel, fun i hi hik => ?_⟩
      rw [hpre i (by omega)]
      exact hag i hi hik
    · have hsame : (g.elect n).hist T = g.hist T := by simp [History.elect, hTn]
      rw [hsame]
      exact gr.fromLeader (h.hist_wf T)
  · intro T m hm
    by_cases hTn : T = g.termOf n
    · subst hTn
      obtain rfl : n = m := some.inj (hlead.symm.trans hm)
      exact le_rfl
    · exact h.leader_le T m (by simpa [History.elect, hTn] using hm)
  · intro m
    by_cases hm : m = n
    · subst hm
      obtain ⟨hlog, hknown, _⟩ := h.replica m
      refine ⟨gr.fromLeader hlog, gr.knownAt h hknown, fun _ => ⟨hlead, hhist.symm⟩, ?_, ?_⟩
      · intro hr
        simp [History.elect] at hr
      · intro T j ha
        exact gr.ackedWf h ha fun _ hh => gr.holds (h.acked_lt_length ha) hh
    · refine gr.replica h ⟨rfl, ?_, rfl, rfl, fun _ _ ha => ha⟩ ?_ ?_
      · simp [History.elect, hm]
      · intro hr
        -- a leader of the same term would have been elected before
        have hne : g.termOf m ≠ g.termOf n := by
          intro heq
          have := ((h.replica m).leads hr).1
          rw [heq, hfresh] at this
          cases this
        simp [History.elect, hne]
      · intro _ hl
        by_cases heq : g.termOf m = g.termOf n
        · rw [heq, hlead] at hl
          exact absurd (some.inj hl).symm hm
        · simpa [History.elect, heq] using hl
  · intro T m hm
    by_cases hTn : T = g.termOf n
    · subst hTn
      obtain rfl : n = m := some.inj (hlead.symm.trans hm)
      exact ⟨g.full n, b, [], Q, hcamp, by rw [hhist, List.append_nil], by simp, hQ, hback⟩
    · exact gr.leaderRec h (by simpa [History.elect, hTn] using hm)

end Elect

end MxKeys.Consensus
