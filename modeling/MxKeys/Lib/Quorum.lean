/-
# MxKeys.Lib.Quorum — majorities of a finite set of voters meet.

The one counting fact behind every agreement argument: two majorities share a member.  Majorities
are `Finset`s, because that is where the intersection bound lives; `majority_of_nodup` gets one from
the list of distinct voters a program collects.
-/
import Mathlib.Data.Fintype.Card
import Mathlib.Data.Finset.Card
import Mathlib.Tactic.Common

namespace MxKeys.Lib

variable {N : Type*} [Fintype N] [DecidableEq N]

/-- More than half of all voters. -/
def Majority (Q : Finset N) : Prop := Fintype.card N < 2 * Q.card

/-- **Two majorities share a voter.** -/
theorem Majority.inter {Q R : Finset N} (hQ : Majority Q) (hR : Majority R) :
    ∃ v, v ∈ Q ∧ v ∈ R := by
  by_contra hne
  have hdisj : Disjoint Q R := by
    rw [Finset.disjoint_left]
    intro v hv hv'
    exact hne ⟨v, hv, hv'⟩
  have hle : (Q ∪ R).card ≤ Fintype.card N := Finset.card_le_univ _
  rw [Finset.card_union_of_disjoint hdisj] at hle
  unfold Majority at hQ hR
  omega

/-- A majority from a list of distinct voters. -/
theorem majority_of_nodup {l : List N} (hl : l.Nodup) (h : Fintype.card N < 2 * l.length) :
    Majority l.toFinset := by
  unfold Majority
  rw [List.toFinset_card_of_nodup hl]
  exact h

end MxKeys.Lib
