import Fluxion.Expr.Derivative
import Fluxion.Proofs.Outcome

/-! What the rules of differentiation build. A derivative is put together from operands of the
expression and the constants zero and one, so what those have, the derivative has too. -/
namespace Fluxion.Expr
variable {name : String}

/-- What a power rule gives: the exponent stays, and the base contributes its own derivative unless
it is the name itself or stays too. -/
theorem derivative_pow_eq_ok {base exponent d : Expr}
    (h : (binary .pow base exponent).derivative name = .ok d) :
    exponent.mentions name = false ∧
      (base.mentions name = false ∧ d = .constant 0.0 ∨
        base = .variable name ∧ d = monomial base exponent ∨
        ∃ dbase, base.derivative name = .ok dbase ∧ d = .mul (monomial base exponent) dbase) := by
  rw [derivative] at h
  split at h
  · cases h
  · next hexponent =>
    refine ⟨by simpa using hexponent, ?_⟩
    split at h
    · next hbase => exact .inl ⟨by simpa using hbase, (Except.ok.inj h).symm⟩
    · split at h
      · next hname =>
        have hbase : base = .variable name := by
          cases base <;> simp_all [variableName?]
        exact .inr (.inl ⟨hbase, (Except.ok.inj h).symm⟩)
      · obtain ⟨dbase, hdbase, hd⟩ := bind_eq_ok.mp h
        exact .inr (.inr ⟨dbase, hdbase, (Except.ok.inj hd).symm⟩)

/-- What zero and one have, and what a node has exactly when its operands do, the derivative has as
soon as the expression does. Of powers it is enough that the base and the monomial inherit it. -/
theorem derivative_preserves {P : Expr → Prop} (hzero : P (.constant 0.0))
    (hone : P (.constant 1.0))
    (hnode : ∀ {op l r}, op ≠ .pow → (P (.binary op l r) ↔ P l ∧ P r))
    (hpow : ∀ {base exponent}, P (.binary .pow base exponent) →
      P base ∧ P (monomial base exponent))
    {e d : Expr} (he : P e) (hd : e.derivative name = .ok d) : P d := by
  induction e generalizing d with
  | constant c =>
    obtain rfl := Except.ok.inj hd
    exact hzero
  | «variable» other =>
    obtain rfl := Except.ok.inj hd
    split
    · exact hone
    · exact hzero
  | binary op l r ihl ihr =>
    by_cases hop : op = .pow
    · subst hop
      obtain ⟨hbase, hmonomial⟩ := hpow he
      obtain ⟨-, ⟨-, rfl⟩ | ⟨-, rfl⟩ | ⟨dbase, hdbase, rfl⟩⟩ := derivative_pow_eq_ok hd
      · exact hzero
      · exact hmonomial
      · exact (hnode (by decide)).mpr ⟨hmonomial, ihl hbase hdbase⟩
    · obtain ⟨hl, hr⟩ := (hnode hop).mp he
      have hmul {a b : Expr} (ha : P a) (hb : P b) : P (.mul a b) :=
        (hnode (by decide)).mpr ⟨ha, hb⟩
      cases op
      case pow => exact absurd rfl hop
      all_goals
        obtain ⟨dl, hdl, hd⟩ := bind_eq_ok.mp hd
        obtain ⟨dr, hdr, hd⟩ := bind_eq_ok.mp hd
        obtain rfl := Except.ok.inj hd
      · exact (hnode (by decide)).mpr ⟨ihl hl hdl, ihr hr hdr⟩
      · exact (hnode (by decide)).mpr ⟨ihl hl hdl, ihr hr hdr⟩
      · exact (hnode (by decide)).mpr ⟨hmul (ihl hl hdl) hr, hmul hl (ihr hr hdr)⟩
      · have hnumerator : P (.sub (.mul dl r) (.mul l dr)) :=
          (hnode (by decide)).mpr ⟨hmul (ihl hl hdl) hr, hmul hl (ihr hr hdr)⟩
        exact (hnode (by decide)).mpr ⟨hnumerator, hmul hr hr⟩

/-- What a node of any kind has exactly when its operands do, the derivative inherits. -/
theorem derivative_preserves_leaves {P : Expr → Prop} (hzero : P (.constant 0.0))
    (hone : P (.constant 1.0)) (hbinary : ∀ {op l r}, P (.binary op l r) ↔ P l ∧ P r)
    {e d : Expr} (he : P e) (hd : e.derivative name = .ok d) : P d := by
  refine derivative_preserves hzero hone (fun _ => hbinary) (fun h => ?_) he hd
  obtain ⟨hbase, hexponent⟩ := hbinary.mp h
  have hless : P (.sub _ (.constant 1.0)) := hbinary.mpr ⟨hexponent, hone⟩
  exact ⟨hbase, hbinary.mpr ⟨hexponent, hbinary.mpr ⟨hbase, hless⟩⟩⟩

/-- A derivative has no names but those of the expression. -/
theorem names_of_derivative {e d : Expr} (hd : e.derivative name = .ok d) : d.names ⊆ e.names := by
  refine derivative_preserves_leaves (P := fun part => part.names ⊆ e.names) ?_ ?_ ?_
    (List.Subset.refl _) hd
  · exact List.nil_subset _
  · exact List.nil_subset _
  · exact List.append_subset

end Fluxion.Expr
