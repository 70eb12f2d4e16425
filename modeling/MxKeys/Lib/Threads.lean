/-
# MxKeys.Lib.Threads — programs that run side by side on a shared state.

A thread is what is left of a program, with a record of its operations and answers.  One step
answers the operation that one thread asks for: the environment proposes an answer, and `handle`
says what is answered in the shared state and what becomes of that; an operation that has to wait is
not answered. Threads are started and events from outside happen at any time.

`safe_of_reach` is the rule for such systems.  An invariant `I` of the shared state, and `J` of the
shared state and the record of a thread, are kept by every operation that a contract allows, for the
thread itself and for all others, and they make the answers what the contract promises; then they
hold in every run, and every thread keeps its contract.
-/
import MxKeys.Lib.Interaction
import MxKeys.Lib.Run

namespace MxKeys.Lib

open List

/-- A program in progress, and a record of what it was started for. -/
structure Thread (ω : Type) (ρ : ω → Type) (κ : Type) where
  prog : Prog ω ρ Unit
  record : κ

/-- The program has not ended. -/
def Thread.Running {ω : Type} {ρ : ω → Type} {κ : Type} (t : Thread ω ρ κ) : Prop :=
  ∃ o next, t.prog = .ask o next

/-- A shared state and the threads that work on it. -/
structure Machine (σ ω : Type) (ρ : ω → Type) (κ : Type) where
  shared : σ
  threads : List (Thread ω ρ κ)

/-- What can happen; `π` are the calls that can be made, `ε` the events from outside. -/
inductive Machine.Event (ω : Type) (ρ : ω → Type) (π ε : Type)
  /-- Thread `i` takes a step; the environment has an answer to whatever it asks for. -/
  | exec (i : Nat) (env : (o : ω) → ρ o)
  | call (p : π)
  | outside (e : ε)

/-- How a system works. -/
structure Machine.Rules (σ ω : Type) (ρ : ω → Type) (κ π ε : Type) where
  /-- What a thread keeps of an operation and its answer. -/
  note : (o : ω) → ρ o → κ → κ
  /-- The answer, given the one that is proposed, and the state after it. -/
  handle : σ → (o : ω) → ρ o → Option (ρ o × σ)
  /-- The thread of a call, in the state in which it is made. -/
  start : σ → π → Thread ω ρ κ
  outside : Machine σ ω ρ κ → ε → Option (Machine σ ω ρ κ)

namespace Machine

variable {σ ω : Type} {ρ : ω → Type} {κ π ε : Type}

/-- Thread `i` is answered. -/
def exec (rules : Rules σ ω ρ κ π ε) (m : Machine σ ω ρ κ) (i : Nat) (env : (o : ω) → ρ o) :
    Option (Machine σ ω ρ κ) :=
  match m.threads[i]? with
  | some ⟨.ask o next, k⟩ =>
    (rules.handle m.shared o (env o)).map fun (answer, s) =>
      ⟨s, m.threads.set i ⟨next answer, rules.note o answer k⟩⟩
  | _ => none

/-- A step of a thread, a new thread, or an event outside. -/
def step (rules : Rules σ ω ρ κ π ε) (m : Machine σ ω ρ κ) :
    Event ω ρ π ε → Option (Machine σ ω ρ κ)
  | .exec i env => m.exec rules i env
  | .call p => some { m with threads := m.threads ++ [rules.start m.shared p] }
  | .outside e => rules.outside m e

variable {rules : Rules σ ω ρ κ π ε} {m m' : Machine σ ω ρ κ}

/-- What a step of a thread does. -/
theorem exec_some {i : Nat} {env : (o : ω) → ρ o} (h : m.exec rules i env = some m') :
    ∃ o next k answer s, m.threads[i]? = some ⟨.ask o next, k⟩ ∧
      rules.handle m.shared o (env o) = some (answer, s) ∧
      m' = ⟨s, m.threads.set i ⟨next answer, rules.note o answer k⟩⟩ := by
  unfold exec at h
  split at h
  · rename_i o next k ht
    obtain ⟨⟨answer, s⟩, hs, rfl⟩ := Option.map_eq_some_iff.1 h
    exact ⟨o, next, k, answer, s, ht, hs, rfl⟩
  · cases h

/-- The shared state satisfies its invariant, and every thread that runs keeps its contract. -/
structure Safe (c : Prog.Contract ω ρ κ) (I : σ → Prop) (J : σ → κ → Prop)
    (m : Machine σ ω ρ κ) : Prop where
  shared : I m.shared
  threads : ∀ t ∈ m.threads, t.Running → J m.shared t.record ∧
    t.prog.Ensures c (fun _ _ => True) t.record

variable {c : Prog.Contract ω ρ κ} {I : σ → Prop} {J : σ → κ → Prop}

/-- Nothing has been called yet. -/
theorem Safe.initial {s : σ} (h : I s) :
    Safe c I J ⟨s, []⟩ := ⟨h, nofun⟩

/-- **The rule for threads.** -/
theorem safe_of_reach {ok : Machine σ ω ρ κ → Event ω ρ π ε → Prop} (h : Reach (step rules) ok m m')
    (hm : Safe c I J m) (hnote : c.note = rules.note)
    (hstart : ∀ p m, I m.shared → ok m (.call p) → J m.shared (rules.start m.shared p).record ∧
      (rules.start m.shared p).prog.Ensures c (fun _ _ => True) (rules.start m.shared p).record)
    (hexec : ∀ m i env o next k answer s, I m.shared → J m.shared k → c.asks k o →
      ok m (.exec i env) → m.threads[i]? = some ⟨.ask o next, k⟩ →
      rules.handle m.shared o (env o) = some (answer, s) →
      c.answers k o answer ∧ I s ∧ J s (c.note o answer k) ∧ ∀ k', J m.shared k' → J s k')
    (houtside : ∀ m e m', Safe c I J m → ok m (.outside e) → rules.outside m e = some m' →
      Safe c I J m') : Safe c I J m' := by
  refine h.invariant hm fun m a m' hsafe hok hstep => ?_
  cases a with
  | exec i env =>
    obtain ⟨o, next, k, answer, s, ht, hs, rfl⟩ := exec_some hstep
    obtain ⟨hJ, hens⟩ := hsafe.threads _ (mem_of_getElem? ht) ⟨o, next, rfl⟩
    obtain ⟨hans, hI, hJk, hothers⟩ :=
      hexec m i env o next k answer s hsafe.shared hJ hens.1 hok ht hs
    refine ⟨hI, fun t ht' hrunning => ?_⟩
    rcases mem_or_eq_of_mem_set ht' with hold | rfl
    · obtain ⟨hJt, henst⟩ := hsafe.threads t hold hrunning
      exact ⟨hothers _ hJt, henst⟩
    · rw [← hnote]
      exact ⟨hJk, hens.2 _ hans⟩
  | call p =>
    cases hstep
    refine ⟨hsafe.shared, fun t ht hrunning => ?_⟩
    rcases mem_append.1 ht with ht | ht
    · exact hsafe.threads t ht hrunning
    · rw [mem_singleton.1 ht]
      exact hstart p m hsafe.shared hok
  | outside e => exact houtside m e m' hsafe hok hstep

end Machine

end MxKeys.Lib
