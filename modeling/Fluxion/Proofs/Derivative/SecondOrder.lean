import Mathlib
import Fluxion.Proofs.Derivative.Agreement
import Fluxion.Proofs.Derivative.Refusal
import Fluxion.Proofs.Scalar.Lifting

/-! Second derivatives in exact arithmetic. Dual numbers of dual numbers compute them, and the
order in which two names are differentiated for does not matter. -/
namespace Fluxion

namespace Dual
variable {α : Type}

def transpose (a : Dual (Dual α)) : Dual (Dual α) :=
  ⟨⟨a.val.val, a.eps.val⟩, ⟨a.val.eps, a.eps.eps⟩⟩

theorem transpose_eq {a b : Dual (Dual α)} (hval : a.val.val = b.val.val)
    (hfirst : a.eps.val = b.val.eps) (hsecond : a.val.eps = b.eps.val)
    (hboth : a.eps.eps = b.eps.eps) : a.transpose = b :=
  eq_of_parts (eq_of_parts hval hfirst) (eq_of_parts hsecond hboth)

variable [Scalar α] [LawfulScalar α]

theorem pow_of_still (a : Dual α) {b : Dual α} (hb : b.eps = Scalar.zero) :
    Scalar.pow a b =
      ⟨Scalar.pow a.val b.val, b.val * Scalar.pow a.val (b.val - Scalar.one) * a.eps⟩ :=
  eq_of_parts rfl (pow_eps hb)

/-- The power rule taken twice, for an exponent that does not change. -/
theorem pow_of_still_twice (v vy vx vxy w : α) :
    (Scalar.pow ⟨⟨v, vy⟩, ⟨vx, vxy⟩⟩ (constant (constant w)) : Dual (Dual α)) =
      ⟨⟨Scalar.pow v w, w * Scalar.pow v (w - Scalar.one) * vy⟩,
        ⟨w * Scalar.pow v (w - Scalar.one) * vx,
          w * Scalar.pow v (w - Scalar.one) * vxy +
            w * ((w - Scalar.one) * Scalar.pow v (w - Scalar.one - Scalar.one)) * (vy * vx)⟩⟩ := by
  let _ := commRingOfLawful α
  have hless : (constant w - Scalar.one : Dual α).eps = Scalar.zero :=
    LawfulScalar.sub_self Scalar.zero
  rw [pow_of_still _ rfl]
  refine eq_of_parts (pow_of_still _ rfl) ?_
  change constant w * Scalar.pow ⟨v, vy⟩ (constant w - Scalar.one) * ⟨vx, vxy⟩ = _
  rw [pow_of_still _ hless]
  refine eq_of_parts rfl ?_
  change w * Scalar.pow v (w - 1) * vxy +
    (w * ((w - 1) * Scalar.pow v (w - 1 - 1) * vy) + 0 * Scalar.pow v (w - 1)) * vx =
      w * Scalar.pow v (w - 1) * vxy + w * ((w - 1) * Scalar.pow v (w - 1 - 1)) * (vy * vx)
  ring

/-- Each operator treats both kinds of `ε` alike, the power as long as the exponent has neither. -/
theorem transpose_apply {op : Operator} {a b : Dual (Dual α)}
    (hstill : op = .pow → b.eps = Scalar.zero ∧ b.val.eps = Scalar.zero) :
    (op.apply a b).transpose = op.apply a.transpose b.transpose := by
  let _ := commRingOfLawful α
  obtain ⟨⟨v, vy⟩, ⟨vx, vxy⟩⟩ := a
  obtain ⟨⟨w, wy⟩, ⟨wx, wxy⟩⟩ := b
  cases op with
  | add => rfl
  | sub => rfl
  | mul =>
    refine transpose_eq rfl rfl rfl ?_
    change v * wxy + vy * wx + (vx * wy + vxy * w) = v * wxy + vx * wy + (vy * wx + vxy * w)
    ring
  | div =>
    refine transpose_eq rfl rfl rfl ?_
    change ((vx * wy + vxy * w - (v * wxy + vy * wx)) * (w * w) -
        (vx * w - v * wx) * (w * wy + wy * w)) / (w * w * (w * w)) =
      ((vy * wx + vxy * w - (v * wxy + vx * wy)) * (w * w) -
        (vy * w - v * wy) * (w * wx + wx * w)) / (w * w * (w * w))
    congr 1
    ring
  | pow =>
    obtain ⟨hx, rfl⟩ := hstill rfl
    cases hx
    change (Scalar.pow _ (constant (constant w))).transpose =
      Scalar.pow ⟨⟨v, vx⟩, ⟨vy, vxy⟩⟩ (constant (constant w))
    rw [pow_of_still_twice, pow_of_still_twice, mul_comm vx vy]
    rfl

end Dual

namespace Expr
variable {α : Type} {lookup : String → Option α} {x y : String} {e d dx dy : Expr}
variable [Scalar α]

/-- Values of names with two kinds of `ε`: `x` changes at unit rate in the outer kind and `y` in the
inner one. -/
def seededTwice (x y : String) (lookup : String → Option α) (other : String) :
    Option (Dual (Dual α)) :=
  (lookup other).map fun value =>
    ⟨⟨value, if other = y then Scalar.one else Scalar.zero⟩,
      ⟨if other = x then Scalar.one else Scalar.zero, Scalar.zero⟩⟩

theorem seededTwice_eq (x y : String) (lookup : String → Option α) :
    seededTwice x y lookup = seeded x (seeded y lookup) := by
  funext other
  rw [seeded, seeded, Option.map_map, seededTwice]
  congr 1
  funext value
  rw [Function.comp_apply]
  split <;> split <;> rfl

section
variable [LawfulScalar α]

/-- The two parts of a dual evaluation are the value and the value of the derivative. -/
theorem seeded_parts {name : String} {v : Dual α} (hd : e.derivative name = .ok d)
    (hv : e.evaluateWith (seeded name lookup) = .ok v) :
    e.evaluateWith lookup = .ok v.val ∧ d.evaluateWith lookup = .ok v.eps :=
  ⟨evaluateWith_of_seeded hv, derivesTo_seeded hv d hd⟩

/-- Over dual numbers seeded for `y`, the two parts are dual numbers again: the dual values of the
expression and of its derivative for `x`. -/
theorem exists_seededTwice (he : e.BoundBy lookup) (hx : e.derivative x = .ok dx) (y : String) :
    ∃ v : Dual (Dual α), e.evaluateWith (seededTwice x y lookup) = .ok v ∧
      e.evaluateWith (seeded y lookup) = .ok v.val ∧
      dx.evaluateWith (seeded y lookup) = .ok v.eps := by
  rw [seededTwice_eq]
  obtain ⟨v, hv⟩ := exists_seeded (boundBy_seeded he y) x
  obtain ⟨hval, heps⟩ := seeded_parts hx hv
  exact ⟨v, hv, hval, heps⟩

/-- What mentions neither name changes in neither kind of `ε`. -/
theorem evaluateWith_seededTwice_still (hx : e.mentions x = false) (hy : e.mentions y = false)
    {v : Dual (Dual α)} (hv : e.evaluateWith (seededTwice x y lookup) = .ok v) :
    v.eps = Scalar.zero ∧ v.val.eps = Scalar.zero := by
  rw [seededTwice_eq] at hv
  exact ⟨eps_of_not_mentions hx hv, eps_of_not_mentions hy (evaluateWith_of_seeded hv)⟩

/-- Exchanging the two names exchanges the two kinds of `ε`, if no exponent contains either
name. -/
theorem evaluateWith_seededTwice_swap (hx : e.firstDependent? x = none)
    (hy : e.firstDependent? y = none) (he : e.BoundBy lookup) {v : Dual (Dual α)}
    (hv : e.evaluateWith (seededTwice x y lookup) = .ok v) :
    e.evaluateWith (seededTwice y x lookup) = .ok v.transpose := by
  induction e generalizing v with
  | constant c =>
    obtain rfl := Except.ok.inj hv
    rfl
  | «variable» other =>
    obtain ⟨a, ha⟩ := Option.isSome_iff_exists.mp (he other (by simp [names]))
    simp only [evaluateWith, seededTwice, ha, Option.map_some] at hv ⊢
    obtain rfl := Except.ok.inj hv
    rfl
  | binary op l r ihl ihr =>
    obtain ⟨hl, hr⟩ := boundBy_binary.mp he
    obtain ⟨hxfree, hlx, hrx⟩ := firstDependent?_binary_eq_none_iff.mp hx
    obtain ⟨hyfree, hly, hry⟩ := firstDependent?_binary_eq_none_iff.mp hy
    obtain ⟨a, ha, hv⟩ := bind_eq_ok.mp hv
    obtain ⟨b, hb, hv⟩ := bind_eq_ok.mp hv
    obtain rfl := Except.ok.inj hv
    rw [Dual.transpose_apply fun hop =>
      evaluateWith_seededTwice_still (hxfree hop) (hyfree hop) hb]
    exact evaluateWith_binary (ihl hlx hly hl ha) (ihr hrx hry hr hb)

/-- Over lawful scalars the second derivatives for two names have one value: that of the two kinds
of `ε` together, which no exchange changes. -/
theorem derivatives_commute_of_lawful (he : e.BoundBy lookup) (hx : e.derivative x = .ok dx)
    (hy : e.derivative y = .ok dy) {dxy dyx : Expr} (hxy : dx.derivative y = .ok dxy)
    (hyx : dy.derivative x = .ok dyx) :
    ∃ value, dxy.evaluateWith lookup = .ok value ∧ dyx.evaluateWith lookup = .ok value := by
  obtain ⟨v, hv, -, hdx⟩ := exists_seededTwice he hx y
  obtain ⟨w, hw, -, hdy⟩ := exists_seededTwice he hy x
  have hswap := evaluateWith_seededTwice_swap (derivative_isOk_iff.mp ⟨dx, hx⟩)
    (derivative_isOk_iff.mp ⟨dy, hy⟩) he hv
  obtain rfl := Except.ok.inj (hswap.symm.trans hw)
  exact ⟨v.eps.eps, (seeded_parts hxy hdx).2, (seeded_parts hyx hdy).2⟩

end

/-- Dual numbers over lawful scalars are lawful, and dual numbers of those, seeded for two names,
hold in their four parts the value of an expression, both its derivatives and the second derivative
for one name after the other. -/
theorem evaluateWith_nested_duals (α : Type) [Scalar α] [LawfulScalar α] :
    LawfulScalar (Dual α) ∧
    ∀ {lookup : String → Option α} {x y : String} {e dx dy : Expr}, e.BoundBy lookup →
      e.derivative x = .ok dx → e.derivative y = .ok dy →
      ∃ (v : Dual (Dual α)) (dxy : Expr), e.evaluateWith (seededTwice x y lookup) = .ok v ∧
        e.evaluateWith lookup = .ok v.val.val ∧ dy.evaluateWith lookup = .ok v.val.eps ∧
        dx.evaluateWith lookup = .ok v.eps.val ∧
        dx.derivative y = .ok dxy ∧ dxy.evaluateWith lookup = .ok v.eps.eps := by
  refine ⟨inferInstance, ?_⟩
  intro lookup x y e dx dy he hx hy
  obtain ⟨dxy, hxy⟩ := exists_derivative_of_derivative hx hy
  obtain ⟨v, hv, hval, heps⟩ := exists_seededTwice he hx y
  obtain ⟨hplain, hslope⟩ := seeded_parts hy hval
  obtain ⟨hother, hsecond⟩ := seeded_parts hxy heps
  exact ⟨v, dxy, hv, hplain, hslope, hother, hxy, hsecond⟩

/-- The cube of `x` over `y`, in integers, where `x` is two and `y` is five. -/
theorem evaluateWith_nested_duals_quotient :
    letI := integerScalar
    let lookup : String → Option Int := fun name => if name = "x" then some 2 else some 5
    let quotient := div (pow (.variable "x") (.constant 3.0)) (.variable "y")
    ∃ dx dy dxy : Expr, quotient.derivative "x" = .ok dx ∧ quotient.derivative "y" = .ok dy ∧
      ∃ v : Dual (Dual Int), quotient.evaluateWith (seededTwice "x" "y" lookup) = .ok v ∧
        quotient.evaluateWith lookup = .ok v.val.val ∧ dy.evaluateWith lookup = .ok v.val.eps ∧
        dx.evaluateWith lookup = .ok v.eps.val ∧
        dx.derivative "y" = .ok dxy ∧ dxy.evaluateWith lookup = .ok v.eps.eps := by
  let _ := integerScalar
  intro lookup quotient
  have hbound : quotient.BoundBy lookup := by
    intro name _
    by_cases hname : name = "x" <;> simp [lookup, hname]
  have hx : quotient.derivative "x" = .ok _ := rfl
  have hy : quotient.derivative "y" = .ok _ := rfl
  obtain ⟨v, dxy, h⟩ := (evaluateWith_nested_duals Int).2 hbound hx hy
  exact ⟨_, _, dxy, hx, hy, v, h⟩

/-- Evaluation never uses the equality test. -/
theorem evaluateWith_decidedScalar (e : Expr) (lookup : String → Option α) :
    @evaluateWith α (decidedScalar α) lookup e = e.evaluateWith lookup := by
  have hid : @KeepsOperators α α (decidedScalar α) _ id :=
    @KeepsOperators.mk α α (decidedScalar α) _ id (fun _ => rfl) fun op _ _ => by cases op <;> rfl
  rw [← @evaluateWith_map α (decidedScalar α) lookup α _ id hid e lookup fun _ _ =>
    Option.map_id_apply, Except.map_id, id]

/-- In exact arithmetic the order in which two names are differentiated for does not matter. If an
expression has derivatives for both, each of them has one for the other name, and the two second
derivatives have the same value. -/
theorem derivatives_commute [RingScalar α] (hx : e.derivative x = .ok dx)
    (hy : e.derivative y = .ok dy) (he : e.BoundBy lookup) :
    ∃ dxy dyx value, dx.derivative y = .ok dxy ∧ dy.derivative x = .ok dyx ∧
      dxy.evaluateWith lookup = .ok value ∧ dyx.evaluateWith lookup = .ok value := by
  obtain ⟨dxy, hxy⟩ := exists_derivative_of_derivative hx hy
  obtain ⟨dyx, hyx⟩ := exists_derivative_of_derivative hy hx
  obtain ⟨value, hvalue, hother⟩ := @derivatives_commute_of_lawful α lookup x y e dx dy
    (decidedScalar α) (lawful_decidedScalar α) he hx hy dxy dyx hxy hyx
  rw [evaluateWith_decidedScalar] at hvalue hother
  exact ⟨dxy, dyx, value, hxy, hyx, hvalue, hother⟩

/-- The quotient of the cube of `x` and `y`, in integers, where `x` is two and `y` is five. -/
theorem derivatives_commute_quotient :
    letI := integerScalar
    let lookup : String → Option Int := fun name => if name = "x" then some 2 else some 5
    let quotient := div (pow (.variable "x") (.constant 3.0)) (.variable "y")
    ∃ dx dy dxy dyx value, quotient.derivative "x" = .ok dx ∧ quotient.derivative "y" = .ok dy ∧
      dx.derivative "y" = .ok dxy ∧ dy.derivative "x" = .ok dyx ∧
      dxy.evaluateWith lookup = .ok value ∧ dyx.evaluateWith lookup = .ok value := by
  let _ := integerScalar
  intro lookup quotient
  have hbound : quotient.BoundBy lookup := by
    intro name _
    by_cases hname : name = "x" <;> simp [lookup, hname]
  have hx : quotient.derivative "x" = .ok _ := rfl
  have hy : quotient.derivative "y" = .ok _ := rfl
  obtain ⟨dxy, dyx, value, h⟩ := derivatives_commute hx hy hbound
  exact ⟨_, _, dxy, dyx, value, hx, hy, h⟩

end Expr
end Fluxion
