/-
# MxKeys.Consensus.Evolve — what every event keeps of the things an implementation remembers.

An implementation of the protocol carries facts about the history around: in a commit index, in a
message under way, in a snapshot on disk, in the `matchIndex` of a leader.  They are all of a few
kinds, and none of them is ever taken back.  `Evolves` is what the events have in common that makes
it so; each kind of fact is transported along it once.

`settled n` is the highest term whose leader can have told replica `n` something by now: its own
term, or the one below while it campaigns or leads.
-/
import MxKeys.Consensus.Replicating

namespace MxKeys.Consensus

open MxKeys.Lib
open Termed (term)
open Function History

variable {N E : Type*} {g g' g'' : History N E} {n m p v : N} {T c τ τ' x t k j : Nat} {e : E}
  {l : List E}

/-! ## Which replicas an event leaves alone -/

/-- Replica `n` and its votes are as they were. -/
structure Same (g g' : History N E) (n : N) : Prop where
  termOf : g'.termOf n = g.termOf n
  role : g'.role n = g.role n
  full : g'.full n = g.full n
  base : g'.base n = g.base n
  vote : ∀ T, g'.vote n T = g.vote n T

theorem Same.refl (g : History N E) (n : N) : Same g g n :=
  ⟨rfl, rfl, rfl, rfl, fun _ => rfl⟩

theorem Same.trans (h : Same g g' n) (h' : Same g' g'' n) :
    Same g g'' n :=
  ⟨h'.termOf.trans h.termOf, h'.role.trans h.role, h'.full.trans h.full, h'.base.trans h.base,
    fun T => (h'.vote T).trans (h.vote T)⟩

section

variable [DecidableEq N]

theorem same_lower (hm : m ≠ n) (T : Nat) : Same g (g.lower n T) m := by
  constructor <;> simp [lower, hm]

theorem same_campaign (hm : m ≠ n) : Same g (g.campaign n) m :=
  ⟨by simp [campaign, hm], by simp [campaign, hm], rfl, rfl,
    fun _ => set2_other fun heq => hm heq.1⟩

theorem same_grant (hm : m ≠ v) (c : N) : Same g (g.grant v c) m :=
  ⟨rfl, rfl, rfl, rfl, fun _ => set2_other fun heq => hm heq.1⟩

theorem same_elect (hm : m ≠ n) : Same g (g.elect n) m := by
  constructor <;> simp [History.elect, hm]

theorem same_publish (hm : m ≠ n) (e : E) : Same g (g.publish n e) m := by
  constructor <;> simp [History.publish, hm]

theorem same_takeOver [Termed E] (hm : m ≠ n) (T : Nat) (l : List E) (x : Nat) :
    Same g (g.takeOver n T l x) m := by
  constructor <;> simp [takeOver, hm]

theorem same_install (hm : m ≠ n) (T x : Nat) : Same g (g.install n T x) m := by
  constructor <;> simp [install, hm]

theorem same_compact (hm : m ≠ n) (b : Nat) : Same g (g.compact n b) m := by
  constructor <;> simp [compact, hm]

end

/-! ## Facts to remember -/

/-- The terms from which a committed prefix may still be installed at replica `n`. -/
def History.settled (g : History N E) (n : N) : Nat :=
  if g.role n = .follower then g.termOf n else g.termOf n - 1

theorem History.settled_le (g : History N E) (n : N) : g.settled n ≤ g.termOf n := by
  unfold History.settled
  split_ifs <;> omega

/-- The entry at position `k` is committed. -/
def CommittedAt (g : History N E) (k : Nat) (e : E) : Prop :=
  ∃ T j, g.cp T j ∧ k ≤ j ∧ (g.hist T)[k]? = some e

/-- An entry below what a replica knows to be committed is committed. -/
theorem KnownAt.committedAt (h : KnownAt g τ l c) (hk : k < c) (he : l[k]? = some e) :
    CommittedAt g k e := by
  rcases h with rfl | ⟨T, j, hcp, hc, _, ha⟩
  · exact absurd hk (Nat.not_lt_zero _)
  · exact ⟨T, j, hcp, by omega, by rw [← ha k hk]; exact he⟩

variable [Termed E]

/-- A prefix of length `x`, committed in a term `≤ τ`, ends in an entry of term `t`. -/
def Boundary (g : History N E) (τ x t : Nat) : Prop :=
  ∃ T j e, g.cp T j ∧ 1 ≤ x ∧ x ≤ j + 1 ∧ T ≤ τ ∧ (g.hist T)[x - 1]? = some e ∧ term e = t

theorem Boundary.mono (h : Boundary g τ x t) (hτ : τ ≤ τ') : Boundary g τ' x t := by
  obtain ⟨T, j, e, hcp, h1, hx, hT, he⟩ := h
  exact ⟨T, j, e, hcp, h1, hx, le_trans hT hτ, he⟩

/-- What is known to be committed ends in a boundary. -/
theorem KnownAt.boundary (h : KnownAt g τ l x) (hx : 1 ≤ x) (he : l[x - 1]? = some e) :
    Boundary g τ x (term e) := by
  rcases h with rfl | ⟨T, j, hcp, hc, hT, ha⟩
  · omega
  · exact ⟨T, j, e, hcp, hx, hc, hT, by rw [← ha (x - 1) (by omega)]; exact he, rfl⟩

/-- Replica `p` has what leader `T` made of its first `c` entries, or it is committed anyway. -/
def Matched (g : History N E) (p : N) (T c : Nat) : Prop :=
  c ≤ (g.hist T).length ∧ ∀ j e, j < c → (g.hist T)[j]? = some e → term e = T →
    g.acked p T j ∨ ∃ j', j ≤ j' ∧ g.cp T j'

theorem Matched.zero (g : History N E) (p : N) (T : Nat) : Matched g p T 0 :=
  ⟨Nat.zero_le _, fun _ _ hj => absurd hj (Nat.not_lt_zero _)⟩

theorem Matched.le {c' : Nat} (h : Matched g p T c) (hc : c' ≤ c) : Matched g p T c' :=
  ⟨hc.trans h.1, fun j e hj => h.2 j e (lt_of_lt_of_le hj hc)⟩

/-- Leaders acknowledge their own entries. -/
def SelfAcked (g : History N E) : Prop :=
  ∀ T n j e, g.leader T = some n → (g.hist T)[j]? = some e → term e = T → g.acked n T j

/-- `g'` is a later history than `g`. -/
structure Evolves (g g' : History N E) : Prop extends Grows g g' where
  settled : ∀ n, g.settled n ≤ g'.settled n
  /-- A committed prefix that a replica holds, it keeps. -/
  keeps : ∀ n T j c, g.cp T j → c ≤ j + 1 → T ≤ g.termOf n → Agree (g.full n) (g.hist T) c →
    Agree (g'.full n) (g'.hist T) c

theorem Evolves.refl (g : History N E) : Evolves g g where
  toGrows := Grows.refl g
  settled := fun _ => le_refl _
  keeps := fun _ _ _ _ _ _ _ ha => ha

theorem Evolves.trans (ev : Evolves g g') (ev' : Evolves g' g'') :
    Evolves g g'' where
  toGrows := ev.toGrows.trans ev'.toGrows
  settled := fun n => le_trans (ev.settled n) (ev'.settled n)
  keeps := fun n T j c hcp hc hT ha =>
    ev'.keeps n T j c (ev.cp T j hcp) hc (le_trans hT (ev.termOf n))
      (ev.keeps n T j c hcp hc hT ha)

/-! ## Transport -/

theorem Evolves.known (ev : Evolves g g') (hk : Known g n c) :
    Known g' n c := by
  rcases hk with h0 | ⟨T, j, hcp, hc, hT, ha⟩
  · exact .inl h0
  · exact .inr ⟨T, j, ev.cp T j hcp, hc, le_trans hT (ev.termOf n),
      ev.keeps n T j c hcp hc hT ha⟩

theorem Evolves.committedAt (ev : Evolves g g') (hc : CommittedAt g k e) :
    CommittedAt g' k e := by
  obtain ⟨T, j, hcp, hk, he⟩ := hc
  exact ⟨T, j, ev.cp T j hcp, hk, getElem?_of_isPrefix (ev.hist T) he⟩

theorem Evolves.boundary (ev : Evolves g g') (hb : Boundary g τ x t) :
    Boundary g' τ x t := by
  obtain ⟨T, j, e, hcp, h1, hx, hT, he, ht⟩ := hb
  exact ⟨T, j, e, ev.cp T j hcp, h1, hx, hT, getElem?_of_isPrefix (ev.hist T) he, ht⟩

theorem Evolves.matched (ev : Evolves g g') (hm : Matched g p T c) :
    Matched g' p T c := by
  refine ⟨hm.1.trans (ev.hist T).length_le, ?_⟩
  intro j e hj he hterm
  rw [ev.agree hm.1 j hj] at he
  rcases hm.2 j e hj he hterm with ha | ⟨j', hle, hcp⟩
  · exact .inl (ev.acked p T j ha)
  · exact .inr ⟨j', hle, ev.cp T j' hcp⟩

/-! ## What is committed -/

variable [Fintype N] [DecidableEq N]

/-- **One entry is committed at a position.** -/
theorem Inv.committed_unique (h : Inv g) {e' : E} (he : CommittedAt g k e)
    (he' : CommittedAt g k e') : e = e' := by
  obtain ⟨T, j, hcp, hk, hget⟩ := he
  obtain ⟨T', j', hcp', hk', hget'⟩ := he'
  have hag := h.cp_agree hcp hcp' (c := k + 1) (by omega) (by omega) k (by omega)
  rw [hget, hget'] at hag
  exact Option.some.inj hag

/-- Two accounts of one committed prefix name the same last entry. -/
theorem Inv.boundary_entry (h : Inv g) (hk : KnownAt g τ l x) (hb : Boundary g τ' x t) :
    ∃ e, l[x - 1]? = some e ∧ term e = t := by
  obtain ⟨T, j, e, hcp, hpos, hx, _, he, ht⟩ := hb
  have hlen := h.known_le_length hk
  obtain ⟨f, hf⟩ := exists_getElem? (l := l) (k := x - 1) (by omega)
  have hfe : f = e :=
    h.committed_unique (hk.committedAt (by omega) hf) ⟨T, j, hcp, by omega, he⟩
  exact ⟨f, hf, by rw [hfe, ht]⟩

/-- A leader of a later term has a committed prefix, so its peers match it there. -/
theorem Inv.matched_of_boundary (h : Inv g) {U : Nat} (hb : Boundary g τ x t) (hτ : τ ≤ U)
    (hel : Elected g U) (p : N) : Matched g p U x := by
  obtain ⟨T, j, e, hcp, h1, hx, hT, _⟩ := hb
  have hag := h.complete_le hcp (hT.trans hτ) hel
  have hlen := h.cp_lt_length hcp
  refine ⟨hx.trans (hag.le_length hlen), ?_⟩
  intro i f hi hf hterm
  -- an entry of term `U` in the log of leader `T ≤ U` means `T = U`
  have hfT : (g.hist T)[i]? = some f := by rw [← hag i (by omega)]; exact hf
  have hle := h.hist_term_le hfT
  have hTU : T = U := by omega
  subst hTU
  exact .inr ⟨j, by omega, hcp⟩

/-- **Log matching** between a replica and a leader it may hear from: an entry of the same term at
the same position means the same log up to there. -/
theorem Inv.log_matching (h : Inv g) (hel : Elected g T) (hT : g.termOf m ≤ T) {f : E}
    (he : (g.full m)[k]? = some e) (hf : (g.hist T)[k]? = some f) (hterm : term e = term f) :
    Agree (g.full m) (g.hist T) (k + 1) := by
  obtain ⟨hlog, hknown, _⟩ := h.replica m
  have hbase := h.known_agree_leader hknown hT hel
  intro i hi
  rcases lt_or_ge i (g.base m) with hlt | hge
  · exact hbase i hlt
  · rw [(hlog k e (by omega) he).2.2.2 i hge (by omega), hterm, h.hist_match hf i hi]

/-! ## The events -/

/-- An event that leaves a log alone keeps its committed prefixes. -/
theorem Grows.keeps_full (gr : Grows g g') (h : Inv g) (hfull : g'.full n = g.full n)
    (hcp : g.cp T j) (hc : c ≤ j + 1) (ha : Agree (g.full n) (g.hist T) c) :
    Agree (g'.full n) (g'.hist T) c := by
  have hlen := h.cp_lt_length hcp
  rw [hfull]
  exact ha.trans (gr.agree (by omega)).symm

theorem evolves_lower (h : Inv g) (hT : g.termOf n ≤ T) :
    Evolves g (g.lower n T) where
  toGrows := grows_lower hT
  settled := by
    intro m
    by_cases hm : m = n
    · subst hm
      have := g.settled_le m
      simp only [History.settled, lower, update_self, if_true]
      exact this.trans hT
    · simp [History.settled, lower, update_of_ne hm]
  keeps := fun _ _ _ _ hcp hc _ ha => (grows_lower hT).keeps_full h rfl hcp hc ha

theorem evolves_campaign (h : Inv g) (n : N) : Evolves g (g.campaign n) where
  toGrows := grows_campaign h n
  settled := by
    intro m
    by_cases hm : m = n
    · subst hm
      have := g.settled_le m
      simpa [History.settled, campaign] using this
    · simp [History.settled, campaign, update_of_ne hm]
  keeps := fun _ _ _ _ hcp hc _ ha => (grows_campaign h n).keeps_full h rfl hcp hc ha

theorem evolves_grant (h : Inv g) (c : N) (hv : g.vote v (g.termOf v) = none) :
    Evolves g (g.grant v c) where
  toGrows := grows_grant h c hv
  settled := fun _ => le_refl _
  keeps := fun _ _ _ _ hcp hc _ ha => (grows_grant h c hv).keeps_full h rfl hcp hc ha

theorem evolves_elect (h : Inv g) (hrole : g.role n = .candidate) {Q : Finset N} (hQ : Majority Q)
    (hvotes : ∀ v ∈ Q, g.vote v (g.termOf n) = some n) :
    Evolves g (g.elect n) where
  toGrows := grows_elect h hrole hQ hvotes
  settled := by
    intro m
    by_cases hm : m = n
    · subst hm
      simp [History.settled, History.elect, hrole]
    · simp [History.settled, History.elect, update_of_ne hm]
  keeps := fun _ _ _ _ hcp hc _ ha =>
    (grows_elect h hrole hQ hvotes).keeps_full h rfl hcp hc ha

theorem evolves_publish (h : Inv g) (hrole : g.role n = .leader) (he : term e = g.termOf n) :
    Evolves g (g.publish n e) where
  toGrows := grows_publish h hrole he
  settled := fun _ => le_refl _
  keeps := by
    intro m T j c hcp hc _ ha
    have gr := grows_publish h hrole he
    by_cases hm : m = n
    · subst hm
      have hlen := h.cp_lt_length hcp
      have hfull : (g.publish m e).full m = g.full m ++ [e] := by simp [History.publish]
      rw [hfull]
      exact ((agree_append _ _ (ha.le_length (by omega))).trans ha).trans
        (gr.agree (by omega)).symm
    · exact gr.keeps_full h (by simp [History.publish, hm]) hcp hc ha

theorem evolves_takeOver (h : Inv g) (hel : Elected g T) (hT : g.termOf m ≤ T)
    (ht : Takes (g.full m) (g.hist T) l x) :
    Evolves g (g.takeOver m T l x) where
  toGrows := grows_takeOver hT l
  settled := by
    intro n
    by_cases hn : n = m
    · subst hn
      have := g.settled_le n
      simp only [History.settled, takeOver, update_self, if_true]
      exact this.trans hT
    · simp [History.settled, takeOver, update_of_ne hn]
  keeps := by
    intro n T₀ j c hcp hc hT₀ ha
    by_cases hn : n = m
    · subst hn
      have hfull : (g.takeOver n T l x).full n = l := by simp [takeOver]
      have hag := (h.complete_le hcp (hT₀.trans hT) hel).mono hc
      rw [hfull]
      exact (ht.keeps c (ha.trans hag.symm)).trans hag
    · exact (grows_takeOver hT l).keeps_full h (by simp [takeOver, hn]) hcp hc ha

theorem evolves_install (h : Inv g) (n : N) (hcp : g.cp T j) (hx : x ≤ j + 1) :
    Evolves g (g.install n T x) where
  toGrows := grows_install n T x
  settled := fun _ => le_refl _
  keeps := by
    intro m T₀ j₀ c hcp₀ hc _ ha
    by_cases hm : m = n
    · subst hm
      have hlen := h.cp_lt_length hcp
      have hfull : (g.install m T x).full m = splice (g.hist T) (g.full m) x := by
        simp [install]
      rw [hfull]
      intro k hk
      rcases lt_or_ge k x with hkx | hkx
      · rw [splice_getElem?_lt (by omega) hkx]
        exact h.cp_agree hcp hcp₀ (c := k + 1) (by omega) (by omega) k (by omega)
      · rw [splice_getElem?_ge (by omega) hkx]
        exact ha k hk
    · exact (grows_install n T x).keeps_full h (by simp [install, hm]) hcp₀ hc ha

theorem evolves_compact (h : Inv g) (n : N) (b : Nat) : Evolves g (g.compact n b) where
  toGrows := grows_compact n b
  settled := fun _ => le_refl _
  keeps := fun _ _ _ _ hcp hc _ ha => (grows_compact n b).keeps_full h rfl hcp hc ha

theorem evolves_commit (h : Inv g) (T j : Nat) : Evolves g (g.commit T j) where
  toGrows := grows_commit T j
  settled := fun _ => le_refl _
  keeps := fun _ _ _ _ hcp hc _ ha => (grows_commit T j).keeps_full h rfl hcp hc ha

/-! ## Leaders and their own entries -/

/-- A replica that wins an election has no entry of its new term yet. -/
theorem Inv.elect_no_own (h : Inv g) (hfresh : g.leader (g.termOf n) = none)
    (he : (g.full n)[j]? = some e) : term e ≠ g.termOf n := by
  obtain ⟨hlog, hknown, _⟩ := h.replica n
  have hel : Elected g (term e) := by
    rcases lt_or_ge j (g.base n) with hlt | hge
    · obtain ⟨T, j', _, _, hT⟩ := hknown.committedAt hlt he
      exact ((h.hist_wf T) j e (Nat.zero_le _) hT).2.2.1
    · exact (hlog j e hge he).2.2.1
  intro heq
  rw [heq] at hel
  exact hel.ne_none hfresh

theorem SelfAcked.elect (h : Inv g) (hs : SelfAcked g) (hfresh : g.leader (g.termOf n) = none) :
    SelfAcked (g.elect n) := by
  intro T m j e hm he hterm
  by_cases hT : T = g.termOf n
  · subst hT
    simp only [History.elect, update_self] at he
    exact absurd hterm (h.elect_no_own hfresh he)
  · simp only [History.elect, update_of_ne hT] at hm he
    exact hs T m j e hm he hterm

theorem SelfAcked.publish (h : Inv g) (hs : SelfAcked g) (hrole : g.role n = .leader) (e : E) :
    SelfAcked (g.publish n e) := by
  intro T m j f hm hf hterm
  obtain ⟨hlead, hfull⟩ := (h.replica n).leads hrole
  by_cases hT : T = g.termOf n
  · subst hT
    have hmn : m = n := Option.some.inj (hm.symm.trans hlead)
    subst hmn
    simp only [History.publish, update_self] at hf
    rcases lt_or_ge j (g.full m).length with hlt | hge
    · rw [List.getElem?_append_left hlt, hfull] at hf
      exact .inl (hs _ m j f hlead hf hterm)
    · have := lt_length_of_getElem? hf
      rw [List.length_append, List.length_singleton] at this
      exact .inr ⟨rfl, rfl, by omega⟩
  · simp only [History.publish, update_of_ne hT] at hf
    exact .inl (hs T m j f hm hf hterm)

end MxKeys.Consensus
