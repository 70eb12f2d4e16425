/-
# MxKeys.Lib.Run — runs of a step function, and what holds along them.

A system is a partial step function `step : σ → α → Option σ`: `none` says that the action is not
enabled.  A claim about "every run" is a claim about `Reach step ok`, the states reached by actions
that each satisfy `ok` in the state they are taken from (`ok := fun _ _ => True` for all runs).

`Reach.invariant` is the only induction on runs: every safety result below it is "holds at the
start" and "one allowed step keeps it".  `execute` runs a concrete list of actions, so that a
schedule can be evaluated, and `reach_of_execute` turns the evaluation into a run.
-/
import Mathlib.Data.Option.Basic
import Mathlib.Tactic.Common

namespace MxKeys.Lib

universe u v

variable {σ : Type u} {α : Type v} {step : σ → α → Option σ} {ok : σ → α → Prop}

/-! ## Runs -/

/-- `Reach step ok s t`: some run from `s`, every action of which is `ok` where it is taken, ends
in `t`. -/
inductive Reach (step : σ → α → Option σ) (ok : σ → α → Prop) (s : σ) : σ → Prop
  | refl : Reach step ok s s
  | tail {t u : σ} {a : α} : Reach step ok s t → ok t a → step t a = some u → Reach step ok s u

/-- Every action is allowed. -/
def anyAction (_ : σ) (_ : α) : Prop := True

variable {s t : σ} {β : Type*} {u : σ} {obs : σ → β} {v : β}

theorem Reach.trans (h₁ : Reach step ok s t) (h₂ : Reach step ok t u) :
    Reach step ok s u := by
  induction h₂ with
  | refl => exact h₁
  | tail _ hok hstep ih => exact .tail ih hok hstep

/-- **The invariant rule.**  What holds at the start and is kept by every allowed step holds in
every state of every allowed run. -/
theorem Reach.invariant {P : σ → Prop} (h : Reach step ok s t) (hs : P s)
    (hstep : ∀ t a u, P t → ok t a → step t a = some u → P u) : P t := by
  induction h with
  | refl => exact hs
  | tail _ hok hu ih => exact hstep _ _ _ ih hok hu

/-! ## Runs with their states -/

/-- `Trace step ok s ts t`: a run from `s` to `t` goes through the states `ts`, the latest first. -/
inductive Trace (step : σ → α → Option σ) (ok : σ → α → Prop) (s : σ) : List σ → σ → Prop
  | start : Trace step ok s [s] s
  | next {ts : List σ} {t u : σ} {a : α} : Trace step ok s ts t → ok t a → step t a = some u →
      Trace step ok s (u :: ts) u

/-- What holds at the start and is kept by every allowed step, of a state and what came before it.
-/
theorem Trace.invariant {P : List σ → σ → Prop} {ts : List σ} (h : Trace step ok s ts t)
    (hs : P [s] s) (hstep : ∀ ts t a u, P ts t → ok t a → step t a = some u → P (u :: ts) u) :
    P ts t := by
  induction h with
  | start => exact hs
  | next _ hok hu ih => exact hstep _ _ _ _ ih hok hu

/-- Every run goes through some states. -/
theorem Reach.trace (h : Reach step ok s t) : ∃ ts, Trace step ok s ts t := by
  induction h with
  | refl => exact ⟨[s], .start⟩
  | tail _ hok hu ih =>
    obtain ⟨ts, hts⟩ := ih
    exact ⟨_, .next hts hok hu⟩

/-! ## Steps of one entry -/

/-- A step of entry `i` of a list, when the entry is at the right point. -/
theorem entry_some {τ β : Type} {l : List β} {i : Nat} {p : β → Prop} [DecidablePred p]
    {f : β → τ} {t : τ} (h : (do let b ← l[i]?; guard (p b); return f b) = some t) :
    ∃ b, l[i]? = some b ∧ p b ∧ t = f b := by
  obtain ⟨b, hb, h⟩ := Option.bind_eq_some_iff.1 h
  by_cases hp : p b
  · simp only [hp, guard, if_true] at h
    exact ⟨b, hb, hp, (Option.some.inj h).symm⟩
  · simp only [hp, guard, if_false] at h
    cases h

/-! ## Concrete schedules -/

/-- Take the actions of a list in order; `none` as soon as one is not enabled or fails the test
`okb`. -/
def execute (step : σ → α → Option σ) (okb : σ → α → Bool) (s : σ) : List α → Option σ
  | [] => some s
  | a :: as => if okb s a then (step s a).bind fun t => execute step okb t as else none

variable {P : α → Prop} {okb : σ → α → Bool} {as : List α}

/-- What `ok` asks of an action alone is checked on the list, the rest while it is run. -/
theorem reach_of_execute (hP : ∀ a ∈ as, P a) (hok : ∀ s a, P a → okb s a = true → ok s a)
    (h : execute step okb s as = some t) : Reach step ok s t := by
  induction as generalizing s with
  | nil =>
    obtain rfl : s = t := by simpa [execute] using h
    exact .refl
  | cons a as ih =>
    by_cases hb : okb s a = true
    · rw [execute, if_pos hb] at h
      obtain ⟨u, hu, hrest⟩ := Option.bind_eq_some_iff.1 h
      exact Reach.trans (.tail .refl (hok _ _ (hP a List.mem_cons_self) hb) hu)
        (ih (fun b hb => hP b (List.mem_cons_of_mem _ hb)) hrest)
    · rw [execute, if_neg hb] at h
      exact absurd h (by simp)

variable {bs : List α}

/-- A schedule can be cut in two. -/
theorem execute_split (h : execute step okb s (as ++ bs) = some u) :
    ∃ t, execute step okb s as = some t ∧ execute step okb t bs = some u := by
  induction as generalizing s with
  | nil => exact ⟨s, rfl, h⟩
  | cons a as ih =>
    rw [List.cons_append, execute] at h
    split_ifs at h with hb
    obtain ⟨v, hv, hrest⟩ := Option.bind_eq_some_iff.1 h
    obtain ⟨t, ht, hu⟩ := ih hrest
    refine ⟨t, ?_, hu⟩
    rw [execute, if_pos hb, hv]
    exact ht

/-- A schedule is run once, for what is to be seen of its last state. -/
theorem reach_observe (hP : ∀ a ∈ as, P a) (hok : ∀ s a, P a → okb s a = true → ok s a)
    (h : (execute step okb s as).map obs = some v) :
    ∃ t, Reach step ok s t ∧ obs t = v := by
  obtain ⟨t, ht, hv⟩ := Option.map_eq_some_iff.1 h
  exact ⟨t, reach_of_execute hP hok ht, hv⟩

/-- A schedule in two parts, for what is to be seen after each. -/
theorem reach_observe_two {w : β} (hP : ∀ a ∈ as ++ bs, P a)
    (hok : ∀ s a, P a → okb s a = true → ok s a)
    (h : ((execute step okb s as).bind fun t => (execute step okb t bs).map fun u =>
      (obs t, obs u)) = some (v, w)) :
    ∃ t u, Reach step ok s t ∧ Reach step ok t u ∧ obs t = v ∧ obs u = w := by
  obtain ⟨t, ht, hrest⟩ := Option.bind_eq_some_iff.1 h
  obtain ⟨u, hu, hobs⟩ := Option.map_eq_some_iff.1 hrest
  obtain ⟨hv, hw⟩ := Prod.mk.inj hobs
  have hP := List.forall_mem_append.1 hP
  exact ⟨t, u, reach_of_execute hP.1 hok ht, reach_of_execute hP.2 hok hu, hv, hw⟩

/-- A schedule without conditions. -/
theorem reach_observe_any (h : (execute step (fun _ _ => true) s as).map obs = some v) :
    ∃ t, Reach step anyAction s t ∧ obs t = v :=
  reach_observe (P := fun _ => True) (fun _ _ => trivial) (fun _ _ _ _ => trivial) h

theorem reach_of_execute_any (h : execute step (fun _ _ => true) s as = some t) :
    Reach step anyAction s t :=
  reach_of_execute (P := fun _ => True) (fun _ _ => trivial) (fun _ _ _ _ => trivial) h

end MxKeys.Lib
