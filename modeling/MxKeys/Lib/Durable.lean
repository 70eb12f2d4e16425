/-
# MxKeys.Lib.Durable — a state on disk and the operations that a crash may lose.

An operation on the state takes effect at once for everybody who looks at it, and is atomic, but it
is on disk only some time later.  A crash keeps any of the operations that are still on their way
and loses the others; what it keeps is on disk from then on.

`MayHold` says what a crash could leave.  It is what an invariant has to speak of: one more
operation adds the states in which it is kept, and a crash picks one state.
-/
import Mathlib.Data.List.Sublists

namespace MxKeys.Lib

open List

universe u v

/-- What is on disk, and the operations since, the oldest first. -/
structure Disk (δ : Type u) (ω : Type v) where
  durable : δ
  pending : List ω

namespace Disk

variable {δ : Type u} {ω : Type v} (apply : ω → δ → δ)

/-- Operations applied in order. -/
def applyAll (ops : List ω) (x : δ) : δ := ops.foldl (fun x op => apply op x) x

/-- The state that everybody sees. -/
def view (d : Disk δ ω) : δ := applyAll apply d.pending d.durable

/-- An operation that is not durable yet. -/
def perform (d : Disk δ ω) (op : ω) : Disk δ ω := { d with pending := d.pending ++ [op] }

/-- The operations that are kept; those beyond the list are lost. -/
def survivors : List Bool → List ω → List ω
  | true :: keep, op :: ops => op :: survivors keep ops
  | false :: keep, _ :: ops => survivors keep ops
  | _, _ => []

/-- A crash: of the pending operations, some survive. -/
def crash (d : Disk δ ω) (keep : List Bool) : Disk δ ω :=
  ⟨applyAll apply (survivors keep d.pending) d.durable, []⟩

/-- A crash could leave this state. -/
def MayHold (d : Disk δ ω) (x : δ) : Prop :=
  ∃ ops, ops.Sublist d.pending ∧ x = applyAll apply ops d.durable

variable {apply} {d : Disk δ ω} {x : δ}

theorem survivors_sublist (keep : List Bool) (ops : List ω) : (survivors keep ops).Sublist ops := by
  fun_induction survivors keep ops with
  | case1 keep op ops ih => exact ih.cons_cons op
  | case2 keep op ops ih => exact ih.cons op
  | case3 => exact nil_sublist _

theorem applyAll_concat (ops : List ω) (op : ω) (x : δ) :
    applyAll apply (ops ++ [op]) x = apply op (applyAll apply ops x) := by
  rw [applyAll, foldl_append]
  rfl

theorem view_perform (op : ω) : (d.perform op).view apply = apply op (d.view apply) :=
  applyAll_concat _ _ _

theorem mayHold_view : d.MayHold apply (d.view apply) := ⟨d.pending, Sublist.refl _, rfl⟩

theorem mayHold_mk {y : δ} : (Disk.mk x ([] : List ω)).MayHold apply y ↔ y = x := by
  constructor
  · rintro ⟨ops, hops, rfl⟩
    rw [sublist_nil.1 hops]
    rfl
  · rintro rfl
    exact mayHold_view

/-- One more operation is lost or kept. -/
theorem mayHold_perform {op : ω} : (d.perform op).MayHold apply x ↔
    d.MayHold apply x ∨ ∃ y, d.MayHold apply y ∧ x = apply op y := by
  constructor
  · rintro ⟨ops, hops, rfl⟩
    obtain ⟨first, last, rfl, hfirst, hlast⟩ := sublist_append_iff.1 hops
    rcases sublist_singleton.1 hlast with rfl | rfl
    · rw [append_nil]
      exact .inl ⟨first, hfirst, rfl⟩
    · exact .inr ⟨_, ⟨first, hfirst, rfl⟩, applyAll_concat _ _ _⟩
  · rintro (⟨ops, hops, rfl⟩ | ⟨y, ⟨ops, hops, rfl⟩, rfl⟩)
    · exact ⟨ops, hops.trans (sublist_append_left _ _), rfl⟩
    · exact ⟨ops ++ [op], hops.append_right [op], (applyAll_concat _ _ _).symm⟩

/-- A crash leaves one of the states that it could leave. -/
theorem mayHold_crash (keep : List Bool) : d.MayHold apply (d.crash apply keep).durable :=
  ⟨_, survivors_sublist keep d.pending, rfl⟩

end Disk

end MxKeys.Lib
