import Fluxion.Expr.Evaluate
import Fluxion.Proofs.Outcome

/-! When an expression has no value: some name in it has none, and the first such name in reading
order is reported. Nothing but the values of its names decides what it evaluates to, and maps of
scalars may be applied before evaluation as well as behind it. -/
namespace Fluxion

/-- A map of scalars that evaluation does not notice. It may change equality tests and logarithms,
which evaluation does not use. -/
structure KeepsOperators {α β : Type} [Scalar α] [Scalar β] (f : α → β) : Prop where
  ofDouble : ∀ x, f (Scalar.ofDouble x) = Scalar.ofDouble x
  apply : ∀ (op : Operator) (a b : α), f (op.apply a b) = op.apply (f a) (f b)

namespace Expr

theorem mentions_iff {e : Expr} {name : String} : e.mentions name = true ↔ name ∈ e.names := by
  induction e with
  | constant c => simp [mentions, names]
  | «variable» other => rw [mentions, names, beq_iff_eq, List.mem_singleton, eq_comm]
  | binary op l r ihl ihr => simp [mentions, names, ihl, ihr]

theorem mem_insertName {name other : String} {sorted : List String} :
    other ∈ insertName name sorted ↔ other = name ∨ other ∈ sorted := by
  induction sorted with
  | nil => simp [insertName]
  | cons first rest ih =>
    rw [insertName]
    split
    · simp
    · split
      · next hfirst => simp [hfirst]
      · rw [List.mem_cons, ih, List.mem_cons, or_left_comm]

theorem mem_foldl_insertName {name : String} (names sorted : List String) :
    name ∈ names.foldl (fun sorted name => insertName name sorted) sorted ↔
      name ∈ names ∨ name ∈ sorted := by
  induction names generalizing sorted with
  | nil => simp
  | cons first names ih =>
    rw [List.foldl_cons, ih, mem_insertName, List.mem_cons, or_left_comm, or_assoc]

/-- Sorting the names loses none and adds none. -/
theorem mem_variableNames {e : Expr} {name : String} : name ∈ e.variableNames ↔ name ∈ e.names := by
  rw [variableNames, mem_foldl_insertName]
  simp

def missing? {κ : Type} (isMissing : String → Bool) (e : Expr κ) : Option Diagnostic :=
  (e.names.find? isMissing).map Diagnostic.unbound

theorem missing?_binary {κ : Type} (isMissing : String → Bool) (op : Operator) (l r : Expr κ) :
    (binary op l r).missing? isMissing = (l.missing? isMissing).or (r.missing? isMissing) := by
  simp only [missing?, names, List.find?_append, Option.map_or]

theorem missing?_eq_none_iff {κ : Type} {isMissing : String → Bool} {e : Expr κ} :
    e.missing? isMissing = none ↔ ∀ name ∈ e.names, isMissing name = false := by
  simp [missing?]

variable {α : Type} [Scalar α] {lookup : String → Option α}

/-- Evaluation fails exactly at the first name without a value; no operand is skipped. -/
theorem evaluateWith_eq_error_iff {e : Expr} {fault : Diagnostic} :
    e.evaluateWith lookup = .error fault ↔
      e.missing? (fun name => (lookup name).isNone) = some fault := by
  induction e generalizing fault with
  | constant c => simp [evaluateWith, missing?, names]
  | «variable» name => cases h : lookup name <;> simp [evaluateWith, missing?, names, h]
  | binary op l r ihl ihr =>
    rw [evaluateWith, missing?_binary]
    refine bind_eq_error_iff (fun _ => ihl) (fun a _ => ?_) fault
    intro f
    cases hr : r.evaluateWith lookup <;> simp [← ihr, hr]

/-- An expression has a value exactly if each of its names has one. -/
theorem evaluateWith_isOk_iff {e : Expr} :
    (∃ value, e.evaluateWith lookup = .ok value) ↔ ∀ name ∈ e.names, (lookup name).isSome := by
  simp only [exists_ok_iff, ne_eq, evaluateWith_eq_error_iff, ← Option.eq_none_iff_forall_ne_some,
    missing?_eq_none_iff, Option.isNone_eq_false_iff]

/-- Mapping the values of the names maps the value, and leaves a fault as it is. -/
theorem evaluateWith_map {β : Type} [Scalar β] {f : α → β} (hf : KeepsOperators f) {e : Expr}
    {other : String → Option β} (h : ∀ name ∈ e.names, (lookup name).map f = other name) :
    (e.evaluateWith lookup).map f = e.evaluateWith other := by
  induction e with
  | constant c => exact congrArg Except.ok (hf.ofDouble c)
  | «variable» name =>
    rw [evaluateWith, evaluateWith, ← h name (by simp [names])]
    cases lookup name <;> rfl
  | binary op l r ihl ihr =>
    rw [evaluateWith, evaluateWith,
      ← ihl fun name hname => h name (List.mem_append_left _ hname),
      ← ihr fun name hname => h name (List.mem_append_right _ hname)]
    cases l.evaluateWith lookup with
    | error fault => rfl
    | ok a =>
      cases r.evaluateWith lookup with
      | error fault => rfl
      | ok b => exact congrArg Except.ok (hf.apply op a b)

/-- The values of other names do not matter. -/
theorem evaluateWith_congr {e : Expr} {other : String → Option α}
    (h : ∀ name ∈ e.names, lookup name = other name) :
    e.evaluateWith lookup = e.evaluateWith other := by
  have hid : KeepsOperators (id : α → α) := ⟨fun _ => rfl, fun _ _ _ => rfl⟩
  rw [← evaluateWith_map hid fun name hname => Option.map_id_apply.trans (h name hname),
    Except.map_id, id]

end Expr
end Fluxion
