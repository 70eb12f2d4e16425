/-
# MxKeys.Consensus.Replicating — publishing, accepting, snapshots and commit points keep the
invariant.

A leader publishes an entry, a replica takes over entries of a leader, installs a committed prefix
from a snapshot or compacts its own, and a majority of acknowledgements makes a commit point.

`takeOver` is where acknowledgements are made.  A replica acknowledges the entries of the leader's
own term that lie above its compaction boundary; below the boundary they are committed already.  How
much of the leader's log it takes over, and whether it gets to the end, is left open: `Takes` says
what all ways of doing so have in common. `install` overwrites the log below the snapshot's end and
keeps the rest, whatever it is.
-/
import MxKeys.Consensus.Voting

namespace MxKeys.Consensus

open MxKeys.Lib
open Termed (term)
open List Function

variable {N E : Type*} [Termed E] [Fintype N] [DecidableEq N] {g : History N E}

/-- Votes are for terms reached, so an acknowledgement of the current term precedes no vote. -/
theorem Inv.voteLog_le (h : Inv g) {m : N} {U : Nat} {L : List E} (hL : g.voteLog m U = some L) :
    U ≤ g.termOf m := by
  obtain ⟨c, hc⟩ := h.voteLog_wf m U L hL
  exact (h.vote_wf m U c hc).1

/-! ## Publishing -/

/-- Leader `n` appends `e` to its log and so acknowledges it. -/
def History.publish (g : History N E) (n : N) (e : E) : History N E :=
  { g with
    full := update g.full n (g.full n ++ [e])
    hist := update g.hist (g.termOf n) (g.full n ++ [e])
    acked := fun m T j => g.acked m T j ∨ (m = n ∧ T = g.termOf n ∧ j = (g.full n).length) }

section Publish

variable (h : Inv g) {n : N} {e : E} (hrole : g.role n = .leader) (he : term e = g.termOf n)

include h hrole he

theorem grows_publish : Grows g (g.publish n e) :=
  have hfull := ((h.replica n).leads hrole).2
  { Grows.refl g with
    hist := by
      intro T
      by_cases hT : T = g.termOf n
      · subst hT
        simp [History.publish, hfull]
      · simp [History.publish, hT]
    hist_new := by
      intro T k f _ hk hf
      by_cases hT : T = g.termOf n
      · subst hT
        have hf' : (g.hist (g.termOf n) ++ [e])[k]? = some f := by
          simpa [History.publish, hfull] using hf
        rw [getElem?_append_right hk] at hf'
        obtain rfl : e = f := mem_singleton.1 (mem_of_getElem? hf') |>.symm
        exact he
      · have hf' : (g.hist T)[k]? = some f := by simpa [History.publish, hT] using hf
        have := lt_length_of_getElem? hf'
        omega
    acked := fun _ _ _ ha => .inl ha }

theorem Inv.publish_replica : ReplicaInv (g.publish n e) n := by
  have gr := grows_publish h hrole he
  obtain ⟨hlog, hknown, hleads, _, _⟩ := h.replica n
  obtain ⟨hlead, hfull⟩ := hleads hrole
  have hfull' : (g.publish n e).full n = g.full n ++ [e] := by simp [History.publish]
  have hhist' : (g.publish n e).hist (g.termOf n) = g.full n ++ [e] := by simp [History.publish]
  have hwf := gr.hist_wf h ⟨n, hlead⟩
  refine ⟨?_, ?_, ?_, ?_, ?_⟩
  · rw [hfull', ← hhist']
    exact hwf.mono (Nat.zero_le _) le_rfl
  · rcases gr.knownAt h hknown with h0 | ⟨T, j, hcp, hc, hT, ha⟩
    · exact .inl h0
    · refine .inr ⟨T, j, hcp, hc, hT, ?_⟩
      rw [hfull']
      exact (agree_append _ _ (h.known_le_length hknown)).trans ha
  · intro _
    exact ⟨hlead, by rw [hfull']; exact hhist'.symm⟩
  · intro hr
    have hr' : g.role n = .candidate := hr
    rw [hrole] at hr'
    cases hr'
  · intro T j ha
    rcases ha with ha | ⟨_, rfl, rfl⟩
    · -- an entry of the current term on top of what was held
      refine gr.ackedWf h ha fun _ hh => ?_
      have hj := h.acked_lt_length ha
      have hjf : j + 1 ≤ (g.full n).length := hh.1.le_length hj
      rw [hfull']
      refine ⟨(agree_append _ _ hjf).trans (gr.holds hj hh).1, ?_⟩
      intro k f hk hf
      rcases lt_or_ge k (g.full n).length with hlt | hge
      · rw [getElem?_append_left hlt] at hf
        exact hh.2 k f hk hf
      · rw [getElem?_append_right hge] at hf
        obtain rfl : f = e := mem_singleton.1 (mem_of_getElem? hf)
        rw [he]
        exact ((h.replica n).acked_wf T j ha).1
    · refine ⟨le_refl _, ⟨n, hlead⟩, ⟨e, by simp [hhist'], he⟩, fun _ => ⟨?_, ?_⟩⟩
      · rw [hfull', hhist']
        exact Agree.rfl' _ _
      · intro k f hk hf
        rw [hfull', getElem?_append_right hk] at hf
        obtain rfl : f = e := mem_singleton.1 (mem_of_getElem? hf)
        exact he.symm.le

theorem Inv.publish : Inv (g.publish n e) := by
  have gr := grows_publish h hrole he
  obtain ⟨hlead, hfull⟩ := (h.replica n).leads hrole
  refine ⟨?_, ?_, h.leader_le, ?_, fun _ _ _ _ hc => gr.campWf h hc,
    fun _ _ _ hv => gr.voteWf h hv, h.voteLog_wf, fun _ _ hn => gr.leaderRec h hn, ?_, ?_⟩
  · intro T hT
    have hne : T ≠ g.termOf n := by
      rintro rfl
      have hT' : g.leader (g.termOf n) = none := hT
      rw [hlead] at hT'
      cases hT'
    simpa [History.publish, hne] using h.hist_none T hT
  · intro T
    by_cases hT : T = g.termOf n
    · subst hT
      exact gr.hist_wf h ⟨n, hlead⟩
    · have hsame : (g.publish n e).hist T = g.hist T := by simp [History.publish, hT]
      rw [hsame]
      exact gr.fromLeader (h.hist_wf T)
  · intro m
    by_cases hm : m = n
    · subst hm
      exact h.publish_replica hrole he
    · refine gr.replica h ⟨rfl, rfl, ?_, rfl, ?_⟩ ?_ (fun _ hl => hl)
      · simp [History.publish, hm]
      · rintro T j (ha | ⟨rfl, _⟩)
        · exact ha
        · exact absurd rfl hm
      · intro hr
        have hne : g.termOf m ≠ g.termOf n := by
          intro heq
          have hlm := ((h.replica m).leads hr).1
          rw [heq, hlead] at hlm
          exact hm (Option.some.inj hlm).symm
        simp [History.publish, hne]
  · rintro m T j U L (ha | ⟨rfl, rfl, rfl⟩) hTU hL hl
    · exact gr.ackedVote h ha hTU hL hl
    · exact absurd (h.voteLog_le hL) (by omega)
  · intro T j hcp
    obtain ⟨Q, hQ, hack⟩ := h.cp_wf T j hcp
    exact ⟨Q, hQ, fun m hm => .inl (hack m hm)⟩

end Publish

/-! ## Accepting a leader's entries -/

/-- Replica `m` makes `l` its log on behalf of leader `T` and acknowledges the entries of term `T`
up to `hi`, above its compaction boundary. -/
def History.takeOver (g : History N E) (m : N) (T : Nat) (l : List E) (hi : Nat) : History N E :=
  { g with
    termOf := update g.termOf m T
    role := update g.role m .follower
    full := update g.full m l
    acked := fun m' T' j => g.acked m' T' j ∨ (m' = m ∧ T' = T ∧ g.base m ≤ j ∧ j < hi ∧
      ∃ e, (g.hist T)[j]? = some e ∧ term e = T) }

section TakeOver

omit [Fintype N] in
theorem grows_takeOver {m : N} {T hi : Nat} (hT : g.termOf m ≤ T) (l : List E) :
    Grows g (g.takeOver m T l hi) :=
  { Grows.refl g with
    termOf := by
      intro n
      by_cases hn : n = m
      · subst hn
        simpa [History.takeOver] using hT
      · simp [History.takeOver, hn]
    acked := fun _ _ _ ha => .inl ha }

variable (h : Inv g) {m : N} {T hi : Nat} {l : List E} (hel : Elected g T) (hT : g.termOf m ≤ T)
  (ht : Takes (g.full m) (g.hist T) l hi)

include h ht

/-- The entries of the leader's own term that are taken over are held. -/
theorem Inv.takeOver_acks {j : Nat} (hbj : g.base m ≤ j) (hjhi : j < hi) {e : E}
    (he : (g.hist T)[j]? = some e) (hte : term e = T) : Holds g T j l := by
  refine ⟨ht.agree.mono (by omega), ?_⟩
  intro k f hk hf
  rcases ht.shape with ⟨heq, hag⟩ | ⟨i, heq⟩
  · -- the log was kept: an entry above belongs to a leader that has the entry at `j`
    rw [heq] at hf
    obtain ⟨_, _, _, hwin⟩ := (h.replica m).log_wf k f (by omega) hf
    have hej : (g.hist (term f))[j]? = some e := by
      rw [← hwin j hbj hk, hag j hjhi]
      exact he
    rw [← hte]
    exact h.hist_term_le hej
  · have hfT : (g.hist T)[k]? = some f := by
      rw [heq] at hf
      exact getElem?_of_take hf
    rw [← hte]
    exact h.hist_mono he hfT hk

include hel

/-- What the replica held of an older leader's log, it still holds after taking over from a leader
that has it too. -/
theorem Inv.takeOver_holds {T₀ j : Nat} (hT₀ : T₀ ≤ T) (hj : j < (g.hist T₀).length)
    (hte : ∀ e, (g.hist T₀)[j]? = some e → term e = T₀) (hl : Later g T₀ T j)
    (hh : Holds g T₀ j (g.full m)) : Holds g T₀ j l := by
  have hTT : Agree (g.hist T) (g.hist T₀) (j + 1) := by
    rcases lt_or_ge T₀ T with hlt | hge
    · exact hl T hlt le_rfl hel
    · rw [le_antisymm hT₀ hge]
      exact Agree.rfl' _ _
  refine ⟨(ht.keeps _ (hh.1.trans hTT.symm)).trans hTT, ?_⟩
  intro k f hk hf
  rcases ht.shape with ⟨heq, _⟩ | ⟨i, heq⟩
  · rw [heq] at hf
    exact hh.2 k f hk hf
  · -- above `j` the leader's terms are at least the term of its entry at `j`
    obtain ⟨e, he⟩ := exists_getElem? hj
    have hfT : (g.hist T)[k]? = some f := by
      rw [heq] at hf
      exact getElem?_of_take hf
    rw [← hte e he]
    exact h.hist_mono ((hTT j (by omega)).trans he) hfT hk

include hT

theorem Inv.takeOver_replica : ReplicaInv (g.takeOver m T l hi) m := by
  have gr : Grows g (g.takeOver m T l hi) := grows_takeOver hT l
  obtain ⟨hlog, hknown, _, _, _⟩ := h.replica m
  have hterm : (g.takeOver m T l hi).termOf m = T := by simp [History.takeOver]
  have hrole : (g.takeOver m T l hi).role m = .follower := by simp [History.takeOver]
  have hfull : (g.takeOver m T l hi).full m = l := by simp [History.takeOver]
  refine ⟨?_, ?_, ?_, ?_, ?_⟩
  · rw [hterm, hfull]
    refine gr.fromLeader ?_
    change FromLeader g (g.base m) T _
    rcases ht.shape with ⟨heq, _⟩ | ⟨i, heq⟩
    · rw [heq]
      exact hlog.mono le_rfl hT
    · rw [heq]
      intro k e _ he
      have hk := lt_length_of_getElem? he
      rw [length_take] at hk
      obtain ⟨h1, hle, hel', hag⟩ := h.hist_wf T k e (Nat.zero_le _) (getElem?_of_take he)
      refine ⟨h1, hle, hel', fun j _ hjk => ?_⟩
      rw [agree_take i le_rfl j (by omega)]
      exact hag j (Nat.zero_le _) hjk
  · -- the compacted prefix is committed, so this leader has it as well
    rw [Known, hterm, hfull]
    have hag := h.known_agree_leader hknown hT hel
    rcases hknown with h0 | ⟨T₀, j, hcp, hc, hT₀, ha⟩
    · exact .inl h0
    · exact .inr ⟨T₀, j, hcp, hc, le_trans hT₀ hT,
        (ht.keeps _ hag).trans (hag.symm.trans ha)⟩
  · intro hr
    rw [hrole] at hr
    cases hr
  · intro hr
    rw [hrole] at hr
    cases hr
  · rintro T₀ j (ha | ⟨_, rfl, hbj, hjhi, e, he, hte⟩)
    · obtain ⟨hT₀, _, ⟨e, he, hte⟩, _⟩ := (h.replica m).acked_wf T₀ j ha
      refine gr.ackedWf h ha fun hl hh => ?_
      rw [hterm] at hl
      rw [hfull]
      have hl' : Later g T₀ T j := gr.later h (h.acked_lt_length ha) le_rfl hl
      refine gr.holds (h.acked_lt_length ha) (h.takeOver_holds hel ht (by omega)
        (h.acked_lt_length ha) ?_ hl' hh)
      intro f hf
      rw [he] at hf
      rw [← Option.some.inj hf]
      exact hte
    · refine ⟨by rw [hterm], gr.elected hel, ⟨e, he, hte⟩, fun _ => ?_⟩
      rw [hfull]
      exact gr.holds (lt_length_of_getElem? he) (h.takeOver_acks ht hbj hjhi he hte)

theorem Inv.takeOver : Inv (g.takeOver m T l hi) := by
  have gr : Grows g (g.takeOver m T l hi) := grows_takeOver hT l
  refine ⟨h.hist_none, h.hist_wf, ?_, ?_, fun _ _ _ _ hc => gr.campWf h hc,
    fun _ _ _ hv => gr.voteWf h hv, h.voteLog_wf, fun _ _ hn => gr.leaderRec h hn, ?_, ?_⟩
  · intro U n hn
    exact (h.leader_le U n hn).trans (gr.termOf n)
  · intro n
    by_cases hn : n = m
    · subst hn
      exact h.takeOver_replica hel hT ht
    · refine gr.replica h ⟨?_, ?_, ?_, rfl, ?_⟩ (fun _ => rfl) (fun _ hl => hl)
      · simp [History.takeOver, hn]
      · simp [History.takeOver, hn]
      · simp [History.takeOver, hn]
      · rintro U j (ha | ⟨rfl, _⟩)
        · exact ha
        · exact absurd rfl hn
  · rintro n U j V L (ha | ⟨rfl, rfl, _⟩) hUV hL hl
    · exact gr.ackedVote h ha hUV hL hl
    · have := h.voteLog_le hL
      omega
  · intro U j hcp
    obtain ⟨Q, hQ, hack⟩ := h.cp_wf U j hcp
    exact ⟨Q, hQ, fun n hn => .inl (hack n hn)⟩

end TakeOver

/-! ## Snapshots and compaction -/

/-- Replica `n` installs the first `x` entries of leader `T`'s log from a snapshot and keeps its own
log above them. -/
def History.install (g : History N E) (n : N) (T x : Nat) : History N E :=
  { g with
    full := update g.full n (splice (g.hist T) (g.full n) x)
    base := update g.base n x }

section Install

omit [Fintype N] in
theorem grows_install (n : N) (T x : Nat) : Grows g (g.install n T x) := { Grows.refl g with }

variable (h : Inv g) {n : N} {T j x : Nat} (hcp : g.cp T j) (hx : x ≤ j + 1) (hT : T ≤ g.termOf n)
  (hbase : g.base n ≤ x) (hbusy : g.role n ≠ .follower → T < g.termOf n)

include h hcp hx

/-- The installed prefix agrees with whatever the replica acknowledged. -/
theorem Inv.install_holds {T₀ i : Nat} (hel₀ : Elected g T₀) {e : E}
    (he : (g.hist T₀)[i]? = some e) (hte : term e = T₀) (hT : T ≤ g.termOf n)
    (hl : Later g T₀ (g.termOf n) i) (hh : Holds g T₀ i (g.full n)) :
    Holds g T₀ i (splice (g.hist T) (g.full n) x) := by
  have hlen := h.cp_lt_length hcp
  have hxl : x ≤ (g.hist T).length := by omega
  rcases lt_or_ge T₀ T with hlt | hge
  · -- a later leader's snapshot: that leader has the acknowledged entry
    have hag := hl T hlt hT (h.cp_entry hcp).1
    refine ⟨?_, ?_⟩
    · intro k hk
      rcases lt_or_ge k x with hkx | hkx
      · rw [splice_getElem?_lt hxl hkx, hag k hk]
      · rw [splice_getElem?_ge hxl hkx, hh.1 k hk]
    · intro k f hk hf
      rcases lt_or_ge k x with hkx | hkx
      · rw [splice_getElem?_lt hxl hkx] at hf
        rw [← hte]
        exact h.hist_mono ((hag i (by omega)).trans he) hf hk
      · rw [splice_getElem?_ge hxl hkx] at hf
        exact hh.2 k f hk hf
  · -- an older leader's snapshot: it is a prefix of the log that was acknowledged
    have hag := h.complete_le hcp hge hel₀
    refine ⟨?_, ?_⟩
    · intro k hk
      rcases lt_or_ge k x with hkx | hkx
      · rw [splice_getElem?_lt hxl hkx, hag k (by omega)]
      · rw [splice_getElem?_ge hxl hkx, hh.1 k hk]
    · intro k f hk hf
      rcases lt_or_ge k x with hkx | hkx
      · rw [splice_getElem?_lt hxl hkx, ← hag k (by omega)] at hf
        rw [← hte]
        exact h.hist_mono he hf hk
      · rw [splice_getElem?_ge hxl hkx] at hf
        exact hh.2 k f hk hf

include hT hbase hbusy

theorem Inv.install_replica : ReplicaInv (g.install n T x) n := by
  have gr := grows_install (g := g) n T x
  have hlen := h.cp_lt_length hcp
  have hxl : x ≤ (g.hist T).length := by omega
  obtain ⟨hlog, _, hleads, hcand, hacked⟩ := h.replica n
  have hfull : (g.install n T x).full n = splice (g.hist T) (g.full n) x := by
    simp [History.install]
  have hbase' : (g.install n T x).base n = x := by simp [History.install]
  refine ⟨?_, ?_, ?_, ?_, ?_⟩
  · rw [hfull, hbase']
    refine gr.fromLeader ?_
    intro k e hk he
    rw [splice_getElem?_ge hxl hk] at he
    obtain ⟨h1, hle, hel, hag⟩ := hlog k e (by omega) he
    refine ⟨h1, hle, hel, fun i hi hik => ?_⟩
    rw [splice_getElem?_ge hxl hi]
    exact hag i (by omega) hik
  · rw [Known, hfull, hbase']
    exact .inr ⟨T, j, hcp, hx, hT, splice_agree hxl⟩
  · intro hr
    have hr' : g.role n = .leader := hr
    obtain ⟨hlead, hown⟩ := hleads hr'
    refine ⟨hlead, ?_⟩
    have hag := (h.complete_le hcp hT ⟨n, hlead⟩).mono hx
    rw [hfull, hown]
    exact splice_eq_self hxl hag
  · intro hr
    have hr' : g.role n = .candidate := hr
    obtain ⟨hne, R, b, y, T₁, hcamp, hyb, hy, heq⟩ := hcand hr'
    have hTlt : T < g.termOf n := hbusy (by rw [hr']; exact fun hc => by cases hc)
    refine ⟨hne, R, b, x, T, hcamp, by rw [hbase'], .inr ⟨j, hcp, hx, hTlt⟩, ?_⟩
    have hyl : y ≤ (g.hist T₁).length := by
      rcases hy with rfl | ⟨i, hcp₁, hyi, _⟩
      · exact Nat.zero_le _
      · have := h.cp_lt_length hcp₁
        omega
    rw [hfull, heq]
    exact splice_splice hyl hxl (by omega)
  · intro T₀ i ha
    obtain ⟨_, hel₀, ⟨e, he, hte⟩, _⟩ := hacked T₀ i ha
    refine gr.ackedWf h ha fun hl hh => ?_
    rw [hfull]
    exact gr.holds (h.acked_lt_length ha) (h.install_holds hcp hx hel₀ he hte hT hl hh)

theorem Inv.install : Inv (g.install n T x) := by
  have gr := grows_install (g := g) n T x
  refine ⟨h.hist_none, h.hist_wf, h.leader_le, ?_, h.camp_wf, h.vote_wf, h.voteLog_wf,
    h.leader_rec, h.acked_vote, h.cp_wf⟩
  intro m
  by_cases hm : m = n
  · subst hm
    exact h.install_replica hcp hx hT hbase hbusy
  · refine gr.replica h ⟨rfl, rfl, ?_, ?_, fun _ _ ha => ha⟩ (fun _ => rfl) (fun _ hl => hl)
    · simp [History.install, hm]
    · simp [History.install, hm]

end Install

/-- Replica `n` compacts away the first `b` entries of its log. -/
def History.compact (g : History N E) (n : N) (b : Nat) : History N E :=
  { g with base := update g.base n b }

omit [Fintype N] in
theorem grows_compact (n : N) (b : Nat) : Grows g (g.compact n b) := { Grows.refl g with }

theorem Inv.compact (h : Inv g) {n : N} {b : Nat} (hk : Known g n b) (hb : g.base n ≤ b) :
    Inv (g.compact n b) := by
  have gr := grows_compact (g := g) n b
  refine ⟨h.hist_none, h.hist_wf, h.leader_le, ?_, h.camp_wf, h.vote_wf, h.voteLog_wf,
    h.leader_rec, h.acked_vote, h.cp_wf⟩
  intro m
  by_cases hm : m = n
  · subst hm
    obtain ⟨hlog, _, hleads, hcand, hacked⟩ := h.replica m
    have hbase' : (g.compact m b).base m = b := by simp [History.compact]
    refine ⟨?_, ?_, hleads, ?_, hacked⟩
    · rw [hbase']
      exact hlog.mono hb le_rfl
    · rw [Known, hbase']
      exact gr.knownAt h hk
    · intro hr
      obtain ⟨hne, R, b₀, x, T, hcamp, hxb, hx, heq⟩ := hcand hr
      exact ⟨hne, R, b₀, x, T, hcamp, by rw [hbase']; omega, hx, heq⟩
  · refine gr.replica h ⟨rfl, rfl, rfl, ?_, fun _ _ ha => ha⟩ (fun _ => rfl) (fun _ hl => hl)
    simp [History.compact, hm]

/-! ## Commit points -/

/-- A majority has acknowledged position `j` in term `T`. -/
def History.commit (g : History N E) (T j : Nat) : History N E :=
  { g with cp := fun T' j' => g.cp T' j' ∨ (T' = T ∧ j' = j) }

omit [Fintype N] [DecidableEq N] in
theorem grows_commit (T j : Nat) : Grows g (g.commit T j) :=
  { Grows.refl g with cp := fun _ _ h => .inl h }

theorem Inv.commit (h : Inv g) {T j : Nat} {Q : Finset N} (hQ : Majority Q)
    (hack : ∀ m ∈ Q, g.acked m T j) : Inv (g.commit T j) := by
  have gr := grows_commit (g := g) T j
  refine ⟨h.hist_none, h.hist_wf, h.leader_le, ?_, fun _ _ _ _ hc => gr.campWf h hc, h.vote_wf,
    h.voteLog_wf, h.leader_rec, h.acked_vote, ?_⟩
  · intro m
    exact gr.replica h ⟨rfl, rfl, rfl, rfl, fun _ _ ha => ha⟩ (fun _ => rfl) (fun _ hl => hl)
  · rintro T' j' (hcp | ⟨rfl, rfl⟩)
    · exact h.cp_wf T' j' hcp
    · exact ⟨Q, hQ, hack⟩

end MxKeys.Consensus
