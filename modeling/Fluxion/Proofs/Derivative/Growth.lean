import Fluxion.Proofs.Derivative.Rules
import Fluxion.Proofs.Expr.RoundTrip
import Fluxion.Proofs.Parser.DepthLimit

/-! How much greater than an expression its derivative can be: at most three times as deep, which
nested quotients attain, and no more than that in nodes for each level of the expression. -/
namespace Fluxion.Expr
variable {name : String} {e l r base exponent d : Expr}

/-! What one rule adds. -/

/-- The rules for sums, differences, products and quotients put at most three levels and five nodes
on top of the derivatives of both operands and three copies of both operands. -/
theorem derivative_rule_size {op : Operator} (hop : op ≠ .pow)
    (h : (binary op l r).derivative name = .ok d) :
    ∃ dl dr, l.derivative name = .ok dl ∧ r.derivative name = .ok dr ∧
      d.depth ≤ 3 + max (max dl.depth dr.depth) (max l.depth r.depth) ∧
      d.nodeCount ≤ 5 + dl.nodeCount + dr.nodeCount + 3 * (l.nodeCount + r.nodeCount) := by
  cases op
  case pow => exact absurd rfl hop
  all_goals
    obtain ⟨dl, hdl, h⟩ := bind_eq_ok.mp h
    obtain ⟨dr, hdr, h⟩ := bind_eq_ok.mp h
    obtain rfl := Except.ok.inj h
    refine ⟨dl, dr, hdl, hdr, ?_, ?_⟩
    · simp only [add, sub, mul, div, depth]
      omega
    · simp only [add, sub, mul, div, nodeCount]
      omega

theorem monomial_depth (base exponent : Expr) :
    (monomial base exponent).depth = max (base.depth + 2) (exponent.depth + 3) := by
  have hexponent := exponent.depth_pos
  simp only [monomial, mul, pow, sub, depth]
  omega

theorem monomial_nodeCount (base exponent : Expr) :
    (monomial base exponent).nodeCount = 4 + base.nodeCount + 2 * exponent.nodeCount := by
  simp only [monomial, mul, pow, sub, nodeCount]
  omega

/-- The power rule gives zero, the monomial, or the monomial times the derivative of a base that is
no leaf. -/
theorem derivative_pow_size (h : (binary .pow base exponent).derivative name = .ok d) :
    d = .constant 0.0 ∨ d = monomial base exponent ∨
      2 ≤ base.depth ∧
        ∃ dbase, base.derivative name = .ok dbase ∧ d = .mul (monomial base exponent) dbase := by
  -- Whether the chain rule is used at all, the rule itself has to say for a leaf.
  cases base with
  | binary op u v =>
    obtain ⟨-, ⟨-, rfl⟩ | ⟨-, rfl⟩ | hchain⟩ := derivative_pow_eq_ok h
    · exact .inl rfl
    · exact .inr (.inl rfl)
    · have hdepth := u.depth_pos
      refine .inr (.inr ⟨?_, hchain⟩)
      simp only [depth]
      omega
  | constant value =>
    rw [derivative] at h
    split at h
    · cases h
    · exact .inl (Except.ok.inj h).symm
  | «variable» other =>
    rw [derivative] at h
    split at h
    · cases h
    · split at h
      · exact .inl (Except.ok.inj h).symm
      · next hbase =>
        have hname : other = name := by simpa [mentions] using hbase
        have hreads : (Expr.variable other).variableName? = some name := congrArg some hname
        rw [if_pos hreads] at h
        exact .inr (.inl (Except.ok.inj h).symm)

/-! What all rules together build. -/

/-- Three levels suffice for each level of the expression, and a leaf needs no more than itself. -/
theorem depth_derivative_le (h : e.derivative name = .ok d) : d.depth ≤ 3 * e.depth - 2 := by
  induction e generalizing d with
  | constant value =>
    obtain rfl := Except.ok.inj h
    exact Nat.le_refl _
  | «variable» other =>
    obtain rfl := Except.ok.inj h
    exact Nat.le_refl _
  | binary op l r ihl ihr =>
    have hl := l.depth_pos
    have hr := r.depth_pos
    by_cases hop : op = .pow
    · subst hop
      obtain rfl | rfl | ⟨hbase, dl, hdl, rfl⟩ := derivative_pow_size h
      · simp only [depth]
        omega
      · rw [monomial_depth, depth]
        omega
      · have hchain := ihl hdl
        simp only [mul, depth, monomial_depth]
        omega
    · obtain ⟨dl, dr, hdl, hdr, hdepth, -⟩ := derivative_rule_size hop h
      have hdl := ihl hdl
      have hdr := ihr hdr
      rw [depth]
      omega

/-- With each level of the expression the derivative gains three nodes for every node at most. -/
theorem nodeCount_derivative_le (h : e.derivative name = .ok d) :
    d.nodeCount ≤ 3 * e.nodeCount * e.depth := by
  induction e generalizing d with
  | constant value =>
    obtain rfl := Except.ok.inj h
    exact Nat.le_add_left 1 2
  | «variable» other =>
    obtain rfl := Except.ok.inj h
    exact Nat.le_add_left 1 2
  | binary op l r ihl ihr =>
    rw [nodeCount, depth]
    have hpos : 1 ≤ max l.depth r.depth := Nat.le_trans l.depth_pos (Nat.le_max_left _ _)
    have hleft {dl : Expr} (hdl : l.derivative name = .ok dl) :
        dl.nodeCount ≤ 3 * l.nodeCount * max l.depth r.depth :=
      Nat.le_trans (ihl hdl) (Nat.mul_le_mul_left _ (Nat.le_max_left _ _))
    have hright {dr : Expr} (hdr : r.derivative name = .ok dr) :
        dr.nodeCount ≤ 3 * r.nodeCount * max l.depth r.depth :=
      Nat.le_trans (ihr hdr) (Nat.mul_le_mul_left _ (Nat.le_max_right _ _))
    generalize max l.depth r.depth = below at *
    have hbound : 3 * (1 + l.nodeCount + r.nodeCount) * (1 + below) =
        3 + 3 * below + 3 * (l.nodeCount + r.nodeCount) +
          (3 * l.nodeCount * below + 3 * r.nodeCount * below) := by ring
    rw [hbound]
    by_cases hop : op = .pow
    · subst hop
      obtain rfl | rfl | ⟨-, dl, hdl, rfl⟩ := derivative_pow_size h
      · rw [nodeCount]
        omega
      · rw [monomial_nodeCount]
        omega
      · have hchain := hleft hdl
        rw [mul, nodeCount, monomial_nodeCount]
        omega
    · obtain ⟨dl, dr, hdl, hdr, -, hcount⟩ := derivative_rule_size hop h
      have hdl := hleft hdl
      have hdr := hright hdr
      omega

def quotients (name : String) : Nat → Expr
  | 0 => .variable name
  | count + 1 => div (quotients name count) (.variable name)

theorem quotients_depth (name : String) (count : Nat) :
    (quotients name count).depth = count + 1 := by
  induction count with
  | zero => rfl
  | succ count ih =>
    simp only [quotients, div, depth, ih]
    omega

/-- Each further quotient adds three levels to the derivative. -/
theorem exists_derivative_quotients (name : String) (count : Nat) :
    ∃ d, (quotients name count).derivative name = .ok d ∧ d.depth = 3 * count + 1 := by
  induction count with
  | zero => exact ⟨.constant 1.0, by simp [quotients, derivative], rfl⟩
  | succ count ih =>
    obtain ⟨d, hd, hdepth⟩ := ih
    have hname : (Expr.variable name).derivative name = .ok (.constant 1.0) := by simp [derivative]
    refine ⟨_, by rw [quotients, div, derivative, hd, hname]; rfl, ?_⟩
    simp only [sub, mul, div, depth, quotients_depth, hdepth]
    omega

/-- A derivative is at most three times as deep as the expression, less two levels, and has at most
three nodes for every node and level of it. The bound on depth is attained at every depth. So one
derivative of a formula, read within the default limit, has no more than 1534 levels. -/
theorem derivative_growth (name : String) :
    (∀ e d : Expr, e.derivative name = .ok d →
      d.depth ≤ 3 * e.depth - 2 ∧ d.nodeCount ≤ 3 * e.nodeCount * e.depth) ∧
    (∀ height, 0 < height → ∃ e d : Expr, e.depth = height ∧ e.derivative name = .ok d ∧
      d.depth = 3 * height - 2) ∧
    ∀ input e d, Expr.parse input = .ok e → e.derivative name = .ok d → d.depth ≤ 1534 := by
  refine ⟨fun e d h => ⟨depth_derivative_le h, nodeCount_derivative_le h⟩, ?_, ?_⟩
  · intro height hheight
    obtain ⟨count, rfl⟩ : ∃ count, height = count + 1 := ⟨height - 1, by omega⟩
    obtain ⟨d, hd, hdepth⟩ := exists_derivative_quotients name count
    exact ⟨quotients name count, d, quotients_depth name count, hd, by omega⟩
  · intro input e d hparse h
    have hlimit : e.depth ≤ 512 := depth_le_of_parseWithin hparse
    have hgrowth := depth_derivative_le h
    omega

end Fluxion.Expr
