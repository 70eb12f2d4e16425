/-
# MxKeys.Lib.Interaction — programs that ask their environment.

A program is a value, or an operation and a program for every answer to it.  The environment may
answer as it likes, differently each time, so that a run is a list of operations with their answers
(`Prog.Steps`), and what holds "whatever the environment does" is a statement about all runs.
Where the answers come from a state that is shared with others, `Prog.Plays` says which runs there
are.

A contract says which operations a program may ask for and which answers it may rely on, both in
terms of a record that is kept of its operations and answers.  `Ensures` is the rule of pre- and
postconditions: as long as the answers are as agreed, every operation is, and if the program ends,
its value and the record satisfy the postcondition.  It is proved along the program
(`ensures_bind`), and `Ensures.run` turns it into a statement about runs.
-/
import Mathlib.Tactic.Common

namespace MxKeys.Lib

open List

/-- Operations `ω`, answered in `ρ`. -/
inductive Prog (ω : Type) (ρ : ω → Type) (α : Type)
  | ret (a : α)
  | ask (o : ω) (next : ρ o → Prog ω ρ α)

namespace Prog

variable {ω : Type} {ρ : ω → Type} {α β : Type}

/-- One program after another. -/
def bind : Prog ω ρ α → (α → Prog ω ρ β) → Prog ω ρ β
  | ret a, k => k a
  | ask o next, k => ask o fun answer => (next answer).bind k

instance : Monad (Prog ω ρ) where
  pure := ret
  bind := bind

/-- One operation. -/
def op (o : ω) : Prog ω ρ (ρ o) := ask o ret

/-! ## Runs -/

/-- `Steps p run q`: after the operations and answers of `run`, what is left of `p` is `q`. -/
inductive Steps : Prog ω ρ α → List ((o : ω) × ρ o) → Prog ω ρ α → Prop
  | refl (p : Prog ω ρ α) : Steps p [] p
  | answer {o : ω} {next : ρ o → Prog ω ρ α} {q : Prog ω ρ α} {run : List ((o : ω) × ρ o)}
      (a : ρ o) (h : Steps (next a) run q) : Steps (ask o next) (⟨o, a⟩ :: run) q

/-- The operations of a run, with the one that has not been answered yet. -/
def Performed (p : Prog ω ρ α) (run : List ((o : ω) × ρ o)) (o : ω) : Prop :=
  (∃ q, Steps p run q) ∧ (∃ e ∈ run, e.1 = o) ∨ ∃ next, Steps p run (ask o next)

/-- Every beginning of a run is one. -/
theorem Steps.take {p q : Prog ω ρ α} {run : List ((o : ω) × ρ o)} (h : Steps p run q) (k : Nat) :
    ∃ q', Steps p (run.take k) q' := by
  induction h generalizing k with
  | refl p => exact ⟨p, by rw [take_nil]; exact .refl p⟩
  | @answer o next q run a h ih =>
    cases k with
    | zero => exact ⟨_, .refl _⟩
    | succ k =>
      obtain ⟨q', hq'⟩ := ih k
      exact ⟨q', .answer a hq'⟩

/-- After a run of its first part, a program goes on as its second part. -/
theorem Steps.bind_iff {p : Prog ω ρ α} {f : α → Prog ω ρ β} {a : α} {q : Prog ω ρ β}
    {run rest : List ((o : ω) × ρ o)} (h : Steps p run (ret a)) :
    Steps (p >>= f) (run ++ rest) q ↔ Steps (f a) rest q := by
  generalize hend : ret a = b at h
  induction h with
  | refl p =>
    subst hend
    rfl
  | @answer o next b run answer h ih =>
    rw [← ih hend]
    show Steps (ask o fun x => (next x).bind f) (⟨o, answer⟩ :: (run ++ rest)) q ↔ _
    constructor
    · rintro ⟨⟩
      assumption
    · exact fun hrest => .answer answer hrest

/-- A run of a program in two parts is a run of the first and one of the second. -/
theorem Steps.of_bind {p : Prog ω ρ α} {f : α → Prog ω ρ β} {b : β} {run : List ((o : ω) × ρ o)}
    (h : Steps (p >>= f) run (ret b)) :
    ∃ a first rest, run = first ++ rest ∧ Steps p first (ret a) ∧ Steps (f a) rest (ret b) := by
  induction p generalizing run with
  | ret a => exact ⟨a, [], run, rfl, .refl _, h⟩
  | ask o next ih =>
    cases h with
    | answer answer h =>
      obtain ⟨a, first, rest, rfl, hfirst, hrest⟩ := ih answer h
      exact ⟨a, ⟨o, answer⟩ :: first, rest, rfl, .answer answer hfirst, hrest⟩

/-- The whole run in an environment that answers the same each time, and the value at its end. -/
def play (env : (o : ω) → ρ o) : Prog ω ρ α → List ((o : ω) × ρ o) × α
  | ret a => ([], a)
  | ask o next => (⟨o, env o⟩ :: (play env (next (env o))).1, (play env (next (env o))).2)

theorem steps_play (env : (o : ω) → ρ o) (p : Prog ω ρ α) :
    Steps p (play env p).1 (ret (play env p).2) := by
  induction p with
  | ret a => exact .refl _
  | ask o next ih => exact .answer (env o) (ih (env o))

theorem play_answer {env : (o : ω) → ρ o} {p : Prog ω ρ α} {e : (o : ω) × ρ o}
    (h : e ∈ (play env p).1) : e.2 = env e.1 := by
  induction p with
  | ret a => cases h
  | ask o next ih =>
    rcases mem_cons.1 h with rfl | h
    · rfl
    · exact ih (env o) h

/-- An operation of that run. -/
theorem performed_play {env : (o : ω) → ρ o} {p : Prog ω ρ α} {o : ω}
    (h : o ∈ (play env p).1.map Sigma.fst) : p.Performed (play env p).1 o := by
  obtain ⟨e, he, heq⟩ := mem_map.1 h
  exact .inl ⟨⟨_, steps_play env p⟩, e, he, heq⟩

/-! ## Among others

The answers to a program may come from a state that it shares with others.  Before each operation
the others may change the state, and `handle` says what is answered in it, given what the rest of
the environment proposes, and what becomes of it. -/

section Among

variable {σ : Type} {handle : σ → (o : ω) → ρ o → Option (ρ o × σ)} {others : σ → σ → Prop}

/-- The answers of a run from one shared state to another. -/
inductive Plays (handle : σ → (o : ω) → ρ o → Option (ρ o × σ)) (others : σ → σ → Prop) :
    σ → List ((o : ω) × ρ o) → σ → Prop
  | nil (s : σ) : Plays handle others s [] s
  | cons {s s₁ s₂ s' : σ} {o : ω} {answer : ρ o} {run : List ((o : ω) × ρ o)}
      (hothers : others s s₁) (proposed : ρ o) (hhandle : handle s₁ o proposed = some (answer, s₂))
      (h : Plays handle others s₂ run s') : Plays handle others s (⟨o, answer⟩ :: run) s'

theorem Plays.of_append {first rest : List ((o : ω) × ρ o)} :
    ∀ {s s' : σ}, Plays handle others s (first ++ rest) s' →
      ∃ m, Plays handle others s first m ∧ Plays handle others m rest s' := by
  induction first with
  | nil => exact fun h => ⟨_, .nil _, h⟩
  | cons e first ih =>
    intro s s' h
    cases h with
    | cons hothers proposed hhandle h =>
      obtain ⟨m, hfirst, hrest⟩ := ih h
      exact ⟨m, .cons hothers proposed hhandle hfirst, hrest⟩

/-- What the others keep and every operation of the run keeps holds at its end. -/
theorem Plays.keep {I : σ → Prop} (hothers : ∀ {s s'}, others s s' → I s → I s')
    {run : List ((o : ω) × ρ o)} :
    ∀ {s s' : σ}, Plays handle others s run s' →
      (∀ e ∈ run, ∀ s s' proposed, handle s e.1 proposed = some (e.2, s') → I s → I s') →
      I s → I s' := by
  induction run with
  | nil =>
    rintro s s' ⟨⟩ - hs
    exact hs
  | cons e run ih =>
    intro s s' h hhandles hs
    obtain ⟨hhead, htail⟩ := forall_mem_cons.1 hhandles
    cases h with
    | cons hother proposed hhandle h =>
      exact ih h htail (hhead _ _ proposed hhandle (hothers hother hs))

end Among

/-! ## Pre- and postconditions -/

/-- What a program and its environment agree on, over a record of type `κ`. -/
structure Contract (ω : Type) (ρ : ω → Type) (κ : Type) where
  /-- What an operation and its answer add to the record. -/
  note : (o : ω) → ρ o → κ → κ
  /-- What the program may ask for. -/
  asks : κ → ω → Prop
  /-- What it may be answered. -/
  answers : κ → (o : ω) → ρ o → Prop

/-- The record after a run. -/
def notes {κ : Type} (note : (o : ω) → ρ o → κ → κ) (k : κ) (run : List ((o : ω) × ρ o)) : κ :=
  run.foldl (fun k e => note e.1 e.2 k) k

/-- The answers of a run are as agreed. -/
def Allowed {κ : Type} (note : (o : ω) → ρ o → κ → κ) (answers : κ → (o : ω) → ρ o → Prop) :
    κ → List ((o : ω) × ρ o) → Prop
  | _, [] => True
  | k, e :: run => answers k e.1 e.2 ∧ Allowed note answers (note e.1 e.2 k) run

instance Allowed.decidable {κ : Type} (note : (o : ω) → ρ o → κ → κ)
    (answers : κ → (o : ω) → ρ o → Prop) [∀ k o a, Decidable (answers k o a)] :
    ∀ k run, Decidable (Allowed note answers k run)
  | _, [] => isTrue trivial
  | k, e :: run =>
    have := decidable note answers (note e.1 e.2 k) run
    inferInstanceAs (Decidable (answers k e.1 e.2 ∧ Allowed note answers (note e.1 e.2 k) run))

section Ensures

variable {κ : Type}

/-- The weakest precondition, on the record. -/
def Ensures (c : Contract ω ρ κ) (post : α → κ → Prop) : Prog ω ρ α → κ → Prop
  | ret a, k => post a k
  | ask o next, k =>
    c.asks k o ∧ ∀ answer, c.answers k o answer → Ensures c post (next answer) (c.note o answer k)

variable {c : Contract ω ρ κ} {post : α → κ → Prop} {post' : β → κ → Prop} {k : κ}

theorem ensures_pure {a : α} (h : post a k) : Ensures c post (pure a : Prog ω ρ α) k := h

theorem ensures_bind {p : Prog ω ρ α} {f : α → Prog ω ρ β} (hp : Ensures c post p k)
    (hf : ∀ a k', post a k' → Ensures c post' (f a) k') : Ensures c post' (p >>= f) k := by
  induction p generalizing k with
  | ret a => exact hf a k hp
  | ask o next ih => exact ⟨hp.1, fun answer hok => ih answer (hp.2 answer hok)⟩

theorem ensures_op {o : ω} {post : ρ o → κ → Prop} (hasks : c.asks k o)
    (hpost : ∀ answer, c.answers k o answer → post answer (c.note o answer k)) :
    Ensures c post (op o) k := ⟨hasks, hpost⟩

/-- An operation and what follows it. -/
theorem ensures_ask {o : ω} {f : ρ o → Prog ω ρ β} (hasks : c.asks k o)
    (hf : ∀ answer, c.answers k o answer → Ensures c post' (f answer) (c.note o answer k)) :
    Ensures c post' (op o >>= f) k := ⟨hasks, hf⟩

theorem Ensures.mono {p : Prog ω ρ α} {post₂ : α → κ → Prop} (h : Ensures c post p k)
    (himp : ∀ a k', post a k' → post₂ a k') : Ensures c post₂ p k := by
  induction p generalizing k with
  | ret a => exact himp a k h
  | ask o next ih => exact ⟨h.1, fun answer hok => ih answer (h.2 answer hok)⟩

/-- Where every operation may be asked for, there is nothing to prove. -/
theorem ensures_any (hasks : ∀ k o, c.asks k o) (p : Prog ω ρ α) (k : κ) :
    Ensures c (fun _ _ => True) p k := by
  induction p generalizing k with
  | ret a => trivial
  | ask o next ih => exact ⟨hasks k o, fun answer _ => ih answer _⟩

/-- What every answer keeps of the record holds at the end. -/
theorem Ensures.keep {Q : κ → Prop} {p : Prog ω ρ α} (h : Ensures c post p k) (hk : Q k)
    (hkeep : ∀ k o answer, c.answers k o answer → Q k → Q (c.note o answer k)) :
    Ensures c (fun a k' => post a k' ∧ Q k') p k := by
  induction p generalizing k with
  | ret a => exact ⟨h, hk⟩
  | ask o next ih =>
    exact ⟨h.1, fun answer hok => ih answer (h.2 answer hok) (hkeep k o answer hok hk)⟩

/-- **What is left of a program after a run keeps to the contract as well.** -/
theorem Ensures.steps {p q : Prog ω ρ α} {run : List ((o : ω) × ρ o)} (h : Ensures c post p k)
    (hsteps : Steps p run q) (hrun : Allowed c.note c.answers k run) :
    Ensures c post q (notes c.note k run) := by
  induction hsteps generalizing k with
  | refl => exact h
  | answer a _ ih => exact ih (h.2 a hrun.1) hrun.2

/-- **Every operation of every run is as agreed**, if the answers were. -/
theorem Ensures.run {p : Prog ω ρ α} (h : Ensures c post p k) {run : List ((o : ω) × ρ o)}
    (hrun : ∀ e ∈ run, ∀ k, c.answers k e.1 e.2) {o : ω} (ho : Performed p run o) :
    ∃ k, c.asks k o := by
  have hsteps : ∀ {q}, Steps p run q → (∀ e ∈ run, ∃ k, c.asks k e.1) ∧
    ∃ k, Ensures c post q k := by
    intro q hq
    clear ho
    induction hq generalizing k with
    | refl => exact ⟨nofun, k, h⟩
    | answer a _ ih =>
      obtain ⟨hhead, htail⟩ := forall_mem_cons.1 hrun
      obtain ⟨hrest, hq⟩ := ih (h.2 a (hhead k)) htail
      exact ⟨forall_mem_cons.2 ⟨⟨k, h.1⟩, hrest⟩, hq⟩
  rcases ho with ⟨⟨q, hq⟩, e, he, rfl⟩ | ⟨next, hq⟩
  · exact (hsteps hq).1 e he
  · obtain ⟨k', hask⟩ := (hsteps hq).2
    exact ⟨k', hask.1⟩

end Ensures

end Prog

end MxKeys.Lib
