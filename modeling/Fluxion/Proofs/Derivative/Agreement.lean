import Fluxion.Proofs.Derivative.Refusal
import Fluxion.Proofs.Derivative.Seeds
import Fluxion.Proofs.Scalar.Lawful

/-! In exact arithmetic the symbolic derivative has the value that dual numbers compute. -/
namespace Fluxion

def Expr.BoundBy {α : Type} (e : Expr) (lookup : String → Option α) : Prop :=
  ∀ name ∈ e.names, (lookup name).isSome

theorem Expr.boundBy_binary {α : Type} {lookup : String → Option α} {op : Operator} {l r : Expr} :
    (binary op l r).BoundBy lookup ↔ l.BoundBy lookup ∧ r.BoundBy lookup := by
  simp only [BoundBy, names, List.mem_append, or_imp, forall_and]

variable {α : Type} [Scalar α]

namespace Dual
variable [LawfulScalar α]

/-- Under an exponent that does not change, the power rule needs no case for the base. -/
theorem pow_eps {a b : Dual α} (hb : b.eps = Scalar.zero) :
    (pow a b).eps = b.val * Scalar.pow a.val (b.val - Scalar.one) * a.eps := by
  have hexponent : (b.eps != Scalar.zero) = false := by simpa using hb
  by_cases ha : a.eps = Scalar.zero
  · have hbase : (a.eps != Scalar.zero) = false := by simpa using ha
    simp only [pow, hexponent, hbase, Bool.false_eq_true, if_false]
    rw [ha, LawfulScalar.mul_zero]
  · have hbase : (a.eps != Scalar.zero) = true := by simpa using ha
    simp only [pow, hexponent, hbase, Bool.false_eq_true, if_false, if_true]

theorem apply_eps_of_unchanged (op : Operator) {a b : Dual α} (ha : a.eps = Scalar.zero)
    (hb : b.eps = Scalar.zero) : (op.apply a b).eps = Scalar.zero := by
  cases op with
  | add =>
    change a.eps + b.eps = Scalar.zero
    rw [ha, hb, LawfulScalar.add_zero]
  | sub =>
    change a.eps - b.eps = Scalar.zero
    rw [ha, hb, LawfulScalar.sub_self]
  | mul =>
    change a.val * b.eps + a.eps * b.val = Scalar.zero
    rw [ha, hb, LawfulScalar.mul_zero, LawfulScalar.zero_mul, LawfulScalar.add_zero]
  | div =>
    change (a.eps * b.val - a.val * b.eps) / (b.val * b.val) = Scalar.zero
    rw [ha, hb, LawfulScalar.mul_zero, LawfulScalar.zero_mul, LawfulScalar.sub_self,
      LawfulScalar.zero_div]
  | pow =>
    change (pow a b).eps = Scalar.zero
    rw [pow_eps hb, ha, LawfulScalar.mul_zero]

end Dual

namespace Expr
variable {lookup : String → Option α} {name : String}

theorem evaluateWith_binary {op : Operator} {l r : Expr} {a b : α}
    (hl : l.evaluateWith lookup = .ok a) (hr : r.evaluateWith lookup = .ok b) :
    (binary op l r).evaluateWith lookup = .ok (op.apply a b) := by
  rw [evaluateWith, hl, hr]
  rfl

theorem evaluateWith_monomial {base exponent : Expr} {a b : α}
    (hbase : base.evaluateWith lookup = .ok a) (hexponent : exponent.evaluateWith lookup = .ok b) :
    (monomial base exponent).evaluateWith lookup =
      .ok (b * Scalar.pow a (b - Scalar.one)) := by
  have hone : (constant 1.0).evaluateWith lookup = .ok Scalar.one := rfl
  exact evaluateWith_binary hexponent
    (evaluateWith_binary hbase (evaluateWith_binary hexponent hone))

/-- Whether the derivative, if there is one, evaluates to the part of `ε` of a dual number. -/
def DerivesTo (name : String) (lookup : String → Option α) (e : Expr) (v : Dual α) : Prop :=
  ∀ d, e.derivative name = .ok d → d.evaluateWith lookup = .ok v.eps

section
variable {l r : Expr} {a b : Dual α}

theorem derivesTo_linear {op : Operator} (hop : op = .add ∨ op = .sub)
    (hl : l.DerivesTo name lookup a) (hr : r.DerivesTo name lookup b) :
    (binary op l r).DerivesTo name lookup (op.apply a b) := by
  rcases hop with rfl | rfl
  all_goals
    intro d hd
    obtain ⟨dl, hdl, hd⟩ := bind_eq_ok.mp hd
    obtain ⟨dr, hdr, hd⟩ := bind_eq_ok.mp hd
    obtain rfl := Except.ok.inj hd
    exact evaluateWith_binary (hl dl hdl) (hr dr hdr)

variable (ha : l.evaluateWith lookup = .ok a.val) (hb : r.evaluateWith lookup = .ok b.val)
include ha hb

theorem derivesTo_div (hl : l.DerivesTo name lookup a) (hr : r.DerivesTo name lookup b) :
    (binary .div l r).DerivesTo name lookup (Dual.div a b) := by
  intro d hd
  obtain ⟨dl, hdl, hd⟩ := bind_eq_ok.mp hd
  obtain ⟨dr, hdr, hd⟩ := bind_eq_ok.mp hd
  obtain rfl := Except.ok.inj hd
  exact evaluateWith_binary
    (evaluateWith_binary (evaluateWith_binary (hl dl hdl) hb)
      (evaluateWith_binary ha (hr dr hdr)))
    (evaluateWith_binary hb hb)

/-- The two product rules name their terms in opposite orders. -/
theorem derivesTo_mul (hcomm : ∀ x y : α, x + y = y + x) (hl : l.DerivesTo name lookup a)
    (hr : r.DerivesTo name lookup b) : (binary .mul l r).DerivesTo name lookup (Dual.mul a b) := by
  intro d hd
  obtain ⟨dl, hdl, hd⟩ := bind_eq_ok.mp hd
  obtain ⟨dr, hdr, hd⟩ := bind_eq_ok.mp hd
  obtain rfl := Except.ok.inj hd
  have hsum : (add (mul dl r) (mul l dr)).evaluateWith lookup =
      .ok (a.eps * b.val + a.val * b.eps) :=
    evaluateWith_binary (evaluateWith_binary (hl dl hdl) hb)
      (evaluateWith_binary ha (hr dr hdr))
  exact hsum.trans (congrArg Except.ok (hcomm _ _))

/-- Outside of powers the two ways to differentiate do the same operations on values, up to the
order of one sum. -/
theorem derivesTo_binary (hcomm : ∀ x y : α, x + y = y + x) {op : Operator}
    (hl : l.DerivesTo name lookup a) (hr : r.DerivesTo name lookup b)
    (hpow : op = .pow → (binary .pow l r).DerivesTo name lookup (Dual.pow a b)) :
    (binary op l r).DerivesTo name lookup (op.apply a b) := by
  cases op with
  | add => exact derivesTo_linear (.inl rfl) hl hr
  | sub => exact derivesTo_linear (.inr rfl) hl hr
  | mul => exact derivesTo_mul ha hb hcomm hl hr
  | div => exact derivesTo_div ha hb hl hr
  | pow => exact hpow rfl

end

theorem boundBy_seeded {e : Expr} (he : e.BoundBy lookup) (name : String) :
    e.BoundBy (seeded name lookup) := by
  intro other hother
  rw [seeded, Option.isSome_map]
  exact he other hother

theorem exists_seeded {e : Expr} (he : e.BoundBy lookup) (name : String) :
    ∃ v : Dual α, e.evaluateWith (seeded name lookup) = .ok v :=
  evaluateWith_isOk_iff.mpr (boundBy_seeded he name)

/-- Wherever sums commute, the two ways to differentiate agree as soon as they agree at powers. -/
theorem derivesTo_of_powers (hcomm : ∀ x y : α, x + y = y + x) {e : Expr} {v : Dual α}
    (hv : e.evaluateWith (seeded name lookup) = .ok v)
    (hpow : ∀ {l r : Expr} {a b : Dual α}, binary .pow l r ∈ e.preorder →
      l.evaluateWith (seeded name lookup) = .ok a → r.evaluateWith (seeded name lookup) = .ok b →
      l.DerivesTo name lookup a → (binary .pow l r).DerivesTo name lookup (Dual.pow a b)) :
    e.DerivesTo name lookup v := by
  induction e generalizing v with
  | constant c =>
    intro d hd
    obtain rfl := Except.ok.inj hv
    obtain rfl := Except.ok.inj hd
    rfl
  | «variable» other =>
    intro d hd
    obtain rfl := Except.ok.inj hd
    cases ha : lookup other with
    | none => simp [evaluateWith, seeded, ha] at hv
    | some a =>
      obtain rfl : (if other = name then .seed a else .constant a) = v := by
        simpa [evaluateWith, seeded, ha] using hv
      split <;> rfl
  | binary op l r ihl ihr =>
    obtain ⟨a, hl, hv⟩ := bind_eq_ok.mp hv
    obtain ⟨b, hr, hv⟩ := bind_eq_ok.mp hv
    obtain rfl := Except.ok.inj hv
    -- The powers of the operands are powers of the whole expression.
    have hla := ihl hl fun hmem => hpow (by simp [preorder, hmem])
    have hrb := ihr hr fun hmem => hpow (by simp [preorder, hmem])
    refine derivesTo_binary (evaluateWith_of_seeded hl) (evaluateWith_of_seeded hr) hcomm hla hrb ?_
    rintro rfl
    exact hpow (by simp [preorder]) hl hr hla

variable [LawfulScalar α]

/-- Without the seeded name nothing changes. -/
theorem eps_of_not_mentions {e : Expr} (he : e.mentions name = false) {v : Dual α}
    (hv : e.evaluateWith (seeded name lookup) = .ok v) : v.eps = Scalar.zero := by
  induction e generalizing v with
  | constant c =>
    obtain rfl := Except.ok.inj hv
    rfl
  | «variable» other =>
    have hne : other ≠ name := by simpa [mentions] using he
    cases ha : lookup other with
    | none => simp [evaluateWith, seeded, ha] at hv
    | some a =>
      obtain rfl : Dual.constant a = v := by simpa [evaluateWith, seeded, ha, hne] using hv
      rfl
  | binary op l r ihl ihr =>
    obtain ⟨hl, hr⟩ := Bool.or_eq_false_iff.mp he
    obtain ⟨a, ha, hv⟩ := bind_eq_ok.mp hv
    obtain ⟨b, hb, hv⟩ := bind_eq_ok.mp hv
    obtain rfl := Except.ok.inj hv
    exact Dual.apply_eps_of_unchanged op (ihl hl ha) (ihr hr hb)

/-- The dual power rule has no cases for the base, so each case of the symbolic one meets it. -/
theorem derivesTo_pow {l r : Expr} {a b : Dual α} (ha : l.evaluateWith lookup = .ok a.val)
    (hb : r.evaluateWith lookup = .ok b.val) (hl : l.DerivesTo name lookup a)
    (hastill : l.mentions name = false → a.eps = Scalar.zero)
    (hbstill : r.mentions name = false → b.eps = Scalar.zero) :
    (binary .pow l r).DerivesTo name lookup (Dual.pow a b) := by
  intro d hd
  obtain ⟨hexponent, hcases⟩ := derivative_pow_eq_ok hd
  have hmonomial := evaluateWith_monomial ha hb
  rw [Dual.pow_eps (hbstill hexponent)]
  rcases hcases with ⟨hbase, rfl⟩ | ⟨rfl, rfl⟩ | ⟨dbase, hdbase, rfl⟩
  · rw [hastill hbase, LawfulScalar.mul_zero]
    rfl
  · have hone : a.eps = Scalar.one := by
      have h := hl (.constant 1.0) (by simp [derivative])
      exact (Except.ok.inj h).symm
    rw [hone, LawfulScalar.mul_one]
    exact hmonomial
  · exact evaluateWith_binary hmonomial (hl dbase hdbase)

/-- Each rule of symbolic differentiation does to values what the operator does to the parts of
`ε`. -/
theorem derivesTo_seeded {e : Expr} {v : Dual α}
    (hv : e.evaluateWith (seeded name lookup) = .ok v) : e.DerivesTo name lookup v :=
  derivesTo_of_powers LawfulScalar.add_comm hv fun _ hl hr hla =>
    derivesTo_pow (evaluateWith_of_seeded hl) (evaluateWith_of_seeded hr) hla
      (fun h => eps_of_not_mentions h hl) fun h => eps_of_not_mentions h hr

/-- In exact arithmetic, where all names of an expression have values, its symbolic derivative
evaluates to the part of `ε` of the dual evaluation in which the name is seeded. -/
theorem derivative_evaluates_to_eps {e d : Expr} (hd : e.derivative name = .ok d)
    (he : e.BoundBy lookup) :
    ∃ v : Dual α, e.evaluateWith (seeded name lookup) = .ok v ∧
      d.evaluateWith lookup = .ok v.eps := by
  obtain ⟨v, hv⟩ := exists_seeded he name
  exact ⟨v, hv, derivesTo_seeded hv d hd⟩

/-- The cube of `x` times `y` over the integers, at two and five. -/
theorem derivative_of_cube_evaluates :
    letI := integerScalar
    let lookup : String → Option Int := fun name => if name = "x" then some 2 else some 5
    let cube := pow (.variable "x") (.constant 3.0)
    let dcube := monomial (.variable "x") (.constant 3.0)
    ∃ v : Dual Int, (mul cube (.variable "y")).evaluateWith (seeded "x" lookup) = .ok v ∧
      (add (mul dcube (.variable "y")) (mul cube (.constant 0.0))).evaluateWith lookup =
        .ok v.eps := by
  let _ := integerScalar
  intro lookup cube dcube
  have hderivative : (mul cube (.variable "y")).derivative "x" =
      .ok (add (mul dcube (.variable "y")) (mul cube (.constant 0.0))) := rfl
  have hbound : (mul cube (.variable "y")).BoundBy lookup := by
    intro name _
    by_cases hname : name = "x" <;> simp [lookup, hname]
  exact derivative_evaluates_to_eps hderivative hbound

end Expr
end Fluxion
