import Mathlib
import Fluxion.Proofs.Derivative.Agreement
import Fluxion.Proofs.Expr.Names
import Fluxion.Proofs.Scalar.Field

/-! Derivatives along a direction. Where every name changes at a rate of its own, an expression
changes at the sum of these rates, each times the derivative for its name. The power rule leaves out
terms of parts that do not change; that never shows, even where rates cancel. Division by zero has to
be linear like any other division: a field with four elements shows that it is not enough that it
respects sums. -/
namespace Fluxion

variable {α : Type}

/-- Dual values of names, each of which changes at its own rate. -/
def Expr.moving (rates : String → α) (lookup : String → Option α) (name : String) :
    Option (Dual α) :=
  (lookup name).map fun value => ⟨value, rates name⟩

theorem Expr.moving_val (rates : String → α) (lookup : String → Option α) (name : String) :
    (moving rates lookup name).map Dual.val = lookup name := by
  rw [moving, Option.map_map]
  exact Option.map_id_apply

variable [Scalar α]

def total (parts : List α) : α := parts.foldr (· + ·) Scalar.zero

namespace Operator

def leftRate : Operator → α → α → α
  | .add, _, _ | .sub, _, _ => Scalar.one
  | .mul, _, b => b
  | .div, _, b => b * (Scalar.one / (b * b))
  | .pow, a, b => b * Scalar.pow a (b - Scalar.one)

def rightRate : Operator → α → α → α
  | .add, _, _ => Scalar.one
  | .sub, _, _ => Scalar.zero - Scalar.one
  | .mul, a, _ => a
  | .div, a, b => Scalar.zero - a * (Scalar.one / (b * b))
  | .pow, a, b => Scalar.pow a b * Scalar.ln a

end Operator

namespace Dual

/-- In exact arithmetic the power rule needs no cases at all. -/
theorem pow_eps_eq [LawfulScalar α] (a b : Dual α) :
    (pow a b).eps = b.val * Scalar.pow a.val (b.val - Scalar.one) * a.eps +
      Scalar.pow a.val b.val * Scalar.ln a.val * b.eps := by
  by_cases hb : b.eps = Scalar.zero
  · rw [pow_eps hb, hb, LawfulScalar.mul_zero, LawfulScalar.add_zero]
  · have hexponent : (b.eps != Scalar.zero) = true := by simpa using hb
    by_cases ha : a.eps = Scalar.zero
    · have hbase : (a.eps != Scalar.zero) = false := by simpa using ha
      simp only [pow, hexponent, hbase, Bool.false_eq_true, if_false, if_true]
      rw [ha, LawfulScalar.mul_zero]
    · have hbase : (a.eps != Scalar.zero) = true := by simpa using ha
      simp only [pow, hexponent, hbase, if_true]

/-- Every rule is linear in the parts of `ε`, with rates that only the values decide. -/
theorem apply_eps [DividingScalar α] (op : Operator) (a b : Dual α) :
    (op.apply a b).eps =
      op.leftRate a.val b.val * a.eps + op.rightRate a.val b.val * b.eps := by
  let _ := commRingOfLawful α
  cases op with
  | add =>
    change a.eps + b.eps = 1 * a.eps + 1 * b.eps
    ring
  | sub =>
    change a.eps - b.eps = 1 * a.eps + (0 - 1) * b.eps
    ring
  | mul =>
    change a.val * b.eps + a.eps * b.val = b.val * a.eps + a.val * b.eps
    ring
  | div =>
    change (a.eps * b.val - a.val * b.eps) / (b.val * b.val) =
      b.val * (1 / (b.val * b.val)) * a.eps + (0 - a.val * (1 / (b.val * b.val))) * b.eps
    rw [DividingScalar.div_eq_mul]
    change (a.eps * b.val - a.val * b.eps) * (1 / (b.val * b.val)) = _
    ring
  | pow => exact pow_eps_eq a b

end Dual

def along (names : List String) (rates slopes : String → α) : α :=
  total (names.map fun name => rates name * slopes name)

theorem along_cons (name : String) (names : List String) (rates slopes : String → α) :
    along (name :: names) rates slopes = rates name * slopes name + along names rates slopes := rfl

section
variable [LawfulScalar α] {names : List String} {rates : String → α}

theorem along_zero : along names rates (fun _ => Scalar.zero) = Scalar.zero := by
  induction names with
  | nil => rfl
  | cons name names ih => rw [along_cons, ih, LawfulScalar.mul_zero, LawfulScalar.add_zero]

theorem along_linear (p q : α) (first second : String → α) :
    along names rates (fun name => p * first name + q * second name) =
      p * along names rates first + q * along names rates second := by
  let _ := commRingOfLawful α
  induction names with
  | nil =>
    change (0 : α) = p * 0 + q * 0
    ring
  | cons name names ih =>
    rw [along_cons, along_cons, along_cons, ih]
    ring

theorem along_of_not_mem {chosen : String} (h : chosen ∉ names) :
    along names rates (fun name => if chosen = name then Scalar.one else Scalar.zero) =
      Scalar.zero := by
  induction names with
  | nil => rfl
  | cons name names ih =>
    obtain ⟨hname, hnames⟩ : chosen ≠ name ∧ chosen ∉ names := by simpa using h
    rw [along_cons, ih hnames, if_neg hname, LawfulScalar.mul_zero, LawfulScalar.add_zero]

/-- A unit slope at one name leaves the rate of that name. -/
theorem along_unit {chosen : String} (hnodup : names.Nodup) (h : chosen ∈ names) :
    along names rates (fun name => if chosen = name then Scalar.one else Scalar.zero) =
      rates chosen := by
  induction names with
  | nil => cases h
  | cons name names ih =>
    obtain ⟨hname, hnames⟩ := List.nodup_cons.mp hnodup
    rw [along_cons]
    by_cases hchosen : chosen = name
    · subst hchosen
      rw [along_of_not_mem hname, if_pos rfl, LawfulScalar.mul_one, LawfulScalar.add_zero]
    · have hmem : chosen ∈ names := List.mem_of_ne_of_mem hchosen h
      rw [ih hnames hmem, if_neg hchosen, LawfulScalar.mul_zero, LawfulScalar.zero_add]

end

namespace Expr
variable {lookup : String → Option α} {rates : String → α}

theorem evaluateWith_of_moving {e : Expr} {v : Dual α}
    (hv : e.evaluateWith (moving rates lookup) = .ok v) : e.evaluateWith lookup = .ok v.val := by
  rw [← evaluateWith_map Dual.val_keepsOperators fun name _ => moving_val rates lookup name, hv]
  rfl

def slopeFor (lookup : String → Option α) (e : Expr) (name : String) : α :=
  match e.evaluateWith (seeded name lookup) with
  | .ok v => v.eps
  | .error _ => Scalar.zero

theorem evaluateWith_seeded_eps {e : Expr} (he : e.BoundBy lookup) (name : String) :
    (e.evaluateWith (seeded name lookup)).map Dual.eps = .ok (e.slopeFor lookup name) := by
  obtain ⟨v, hv⟩ := exists_seeded he name
  rw [slopeFor, hv]
  rfl

theorem slopeFor_variable {name : String} {value : α} (h : lookup name = some value) :
    (Expr.variable name).slopeFor lookup =
      fun other => if name = other then Scalar.one else Scalar.zero := by
  funext other
  have hseeded : (Expr.variable name).evaluateWith (seeded other lookup) =
      .ok (if name = other then .seed value else .constant value) := by
    simp [evaluateWith, seeded, h]
  rw [slopeFor, hseeded]
  by_cases hname : name = other
  · rw [if_pos hname, if_pos hname]
    rfl
  · rw [if_neg hname, if_neg hname]
    rfl

variable [DividingScalar α]

theorem slopeFor_binary {op : Operator} {l r : Expr} {a b : α} (hl : l.evaluateWith lookup = .ok a)
    (hr : r.evaluateWith lookup = .ok b) :
    (binary op l r).slopeFor lookup = fun name =>
      op.leftRate a b * l.slopeFor lookup name + op.rightRate a b * r.slopeFor lookup name := by
  funext name
  obtain ⟨v, hv⟩ := exists_seeded (evaluateWith_isOk_iff.mp ⟨a, hl⟩) name
  obtain ⟨w, hw⟩ := exists_seeded (evaluateWith_isOk_iff.mp ⟨b, hr⟩) name
  obtain rfl := Except.ok.inj ((evaluateWith_of_seeded hv).symm.trans hl)
  obtain rfl := Except.ok.inj ((evaluateWith_of_seeded hw).symm.trans hr)
  simp only [slopeFor, evaluateWith_binary hv hw, hv, hw]
  exact Dual.apply_eps op v w

/-- Over any names that include those of the expression, each once. -/
theorem eps_of_moving {names : List String} (hnodup : names.Nodup) {e : Expr}
    (hnames : e.names ⊆ names) {v : Dual α} (hv : e.evaluateWith (moving rates lookup) = .ok v) :
    v.eps = along names rates (e.slopeFor lookup) := by
  induction e generalizing v with
  | constant c =>
    obtain rfl := Except.ok.inj hv
    exact along_zero.symm
  | «variable» name =>
    cases hvalue : lookup name with
    | none => simp [evaluateWith, moving, hvalue] at hv
    | some value =>
      obtain rfl : ⟨value, rates name⟩ = v := by simpa [evaluateWith, moving, hvalue] using hv
      rw [slopeFor_variable hvalue, along_unit hnodup (hnames (List.mem_singleton_self name))]
  | binary op l r ihl ihr =>
    obtain ⟨hlnames, hrnames⟩ := List.append_subset.mp hnames
    obtain ⟨a, ha, hv⟩ := bind_eq_ok.mp hv
    obtain ⟨b, hb, hv⟩ := bind_eq_ok.mp hv
    obtain rfl := Except.ok.inj hv
    calc (op.apply a b).eps
        = op.leftRate a.val b.val * a.eps + op.rightRate a.val b.val * b.eps :=
          Dual.apply_eps op a b
      _ = op.leftRate a.val b.val * along names rates (l.slopeFor lookup) +
            op.rightRate a.val b.val * along names rates (r.slopeFor lookup) := by
          rw [ihl hlnames ha, ihr hrnames hb]
      _ = along names rates ((binary op l r).slopeFor lookup) := by
          rw [← along_linear,
            slopeFor_binary (evaluateWith_of_moving ha) (evaluateWith_of_moving hb)]

/-- Where the names of an expression have values and change at any rates, the expression changes at
the sum over its names of their rates, each times the derivative for that name alone. -/
theorem evaluateWith_moving (rates : String → α) {e : Expr} (he : e.BoundBy lookup) :
    ∃ (v : Dual α) (slopes : String → α), e.evaluateWith (moving rates lookup) = .ok v ∧
      (∀ name, (e.evaluateWith (seeded name lookup)).map Dual.eps = .ok (slopes name)) ∧
      v.eps = total (e.variableNames.map fun name => rates name * slopes name) := by
  have hmoving : e.BoundBy (moving rates lookup) := by
    intro name hname
    rw [moving, Option.isSome_map]
    exact he name hname
  obtain ⟨v, hv⟩ := evaluateWith_isOk_iff.mpr hmoving
  refine ⟨v, e.slopeFor lookup, hv, evaluateWith_seeded_eps he, ?_⟩
  exact eps_of_moving e.variableNames_nodup (fun _ hname => mem_variableNames.mpr hname) hv

/-- The power of the difference of `x` and `y`, which change alike, and `z`, in real numbers. The
base does not change along this direction, though it does for `x` and for `y` alone. -/
theorem evaluateWith_moving_power :
    let lookup : String → Option ℝ := fun name => if name = "y" then some 1 else some 3
    let rates : String → ℝ := fun name => if name = "z" then 5 else 1
    let power := pow (sub (.variable "x") (.variable "y")) (.variable "z")
    (sub (.variable "x") (.variable "y")).evaluateWith (moving rates lookup) = .ok ⟨3 - 1, 1 - 1⟩ ∧
      power.BoundBy lookup ∧
      ∃ (v : Dual ℝ) (slopes : String → ℝ), power.evaluateWith (moving rates lookup) = .ok v ∧
        (∀ name, (power.evaluateWith (seeded name lookup)).map Dual.eps = .ok (slopes name)) ∧
        v.eps = total [1 * slopes "x", 1 * slopes "y", 5 * slopes "z"] := by
  intro lookup rates power
  have hbound : power.BoundBy lookup := by
    intro name _
    by_cases hname : name = "y" <;> simp [lookup, hname]
  have hnames : power.variableNames = ["x", "y", "z"] := by decide
  obtain ⟨v, slopes, hv, hslopes, heps⟩ := evaluateWith_moving rates hbound
  refine ⟨rfl, hbound, v, slopes, hv, hslopes, heps.trans ?_⟩
  rw [hnames]
  rfl

/-- The quotient of `x` and `y` in the field with four elements, where `y` is zero. For `y` it changes
at rate one; but where `y` changes at the rate of an element other than zero and one, it changes at
the rate of the square. -/
theorem evaluateWith_moving_by_zero :
    let lookup : String → Option Quaternary := fun name => if name = "x" then some ⟨1⟩ else some ⟨0⟩
    let rates : String → Quaternary := fun name => if name = "x" then ⟨0⟩ else ⟨2⟩
    let quotient := div (.variable "x") (.variable "y")
    FieldScalar Quaternary ∧ (Scalar.zero : Quaternary) ≠ Scalar.one ∧
      (∀ a b c : Quaternary, (a + b) / c = a / c + b / c) ∧
      (∀ c : Quaternary, Scalar.zero / c = Scalar.zero) ∧ quotient.BoundBy lookup ∧
      ∃ (v : Dual Quaternary) (slopes : String → Quaternary),
        quotient.evaluateWith (moving rates lookup) = .ok v ∧
        (∀ name, (quotient.evaluateWith (seeded name lookup)).map Dual.eps = .ok (slopes name)) ∧
        v.eps ≠ total (quotient.variableNames.map fun name => rates name * slopes name) := by
  intro lookup rates quotient
  have hbound : quotient.BoundBy lookup := by
    intro name _
    by_cases hname : name = "x" <;> simp [lookup, hname]
  have hx : quotient.slopeFor lookup "x" = ⟨0⟩ := by decide +kernel
  have hy : quotient.slopeFor lookup "y" = ⟨1⟩ := by decide +kernel
  have hnames : quotient.variableNames = ["x", "y"] := by decide
  refine ⟨inferInstance, by decide +kernel, by decide +kernel, by decide +kernel, hbound, _,
    quotient.slopeFor lookup, rfl, evaluateWith_seeded_eps hbound, ?_⟩
  rw [hnames, List.map_cons, List.map_cons, hx, hy]
  decide +kernel

end Expr
end Fluxion
