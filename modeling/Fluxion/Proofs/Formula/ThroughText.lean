import Fluxion.Formula
import Fluxion.Proofs.Derivative.Refusal
import Fluxion.Proofs.Expr.RoundTrip

/-! Operations on formulas agree with operations on expressions. A derivative that is written as a
formula and read again is the same expression, so any number of derivatives may be taken through
text, as long as the depth limit is kept. -/
namespace Fluxion

/-- What comes back from its text as it is: the names are words of the grammar, and the constants
are finite and have no sign. -/
structure Expr.Rereadable (e : Expr) : Prop where
  names : e.WellNamed
  constants : ∀ x ∈ e.constants,
    ¬ hasSign x ∧ doubleCode x < BinaryFormat.double.infinityCode

namespace Expr.Rereadable
variable {e d : Expr} {name : String}

theorem binary_iff {op : Operator} {l r : Expr} :
    (binary op l r).Rereadable ↔ l.Rereadable ∧ r.Rereadable := by
  constructor
  · intro h
    obtain ⟨hl, hr⟩ := wellNamed_binary.mp h.names
    exact ⟨⟨hl, fun x hx => h.constants x (List.mem_append_left _ hx)⟩,
      ⟨hr, fun x hx => h.constants x (List.mem_append_right _ hx)⟩⟩
  · rintro ⟨hl, hr⟩
    refine ⟨wellNamed_binary.mpr ⟨hl.names, hr.names⟩, fun x hx => ?_⟩
    exact (List.mem_append.mp hx).elim (hl.constants x) (hr.constants x)

theorem constant {x : Float} (hsign : ¬ hasSign x)
    (hfinite : doubleCode x < BinaryFormat.double.infinityCode) :
    (Expr.constant x).Rereadable := by
  refine ⟨by simp [WellNamed, Expr.names], fun y hy => ?_⟩
  obtain rfl := List.mem_singleton.mp hy
  exact ⟨hsign, hfinite⟩

/-- Differentiation adds no constants but zero and one, and no names. -/
theorem derivative (he : e.Rereadable) (hd : e.derivative name = .ok d) : d.Rereadable :=
  derivative_preserves_leaves (constant (by decide) (by decide))
    (constant (by decide +kernel) (by decide +kernel)) binary_iff he hd

theorem parseWithin_render {limit : Nat} (he : e.Rereadable) (hdepth : e.depth ≤ limit) :
    Expr.parseWithin limit e.render = .ok e := by
  have hconstants : ∀ x ∈ e.constants,
      ¬ hasSign x ∧ doubleCode x ≤ BinaryFormat.double.infinityCode :=
    fun x hx => ⟨(he.constants x hx).1, Nat.le_of_lt (he.constants x hx).2⟩
  have hsame : e.reread = e := by
    refine (reread_agrees_iff hconstants).2 fun x hx => ?_
    have hlt := (he.constants x hx).2
    rw [← Bool.not_eq_true, isInf_iff]
    omega
  have hparse := parseWithin_of_render he.names
    (fun x hx hlt => (hconstants x hx).1 (lt_zero_iff.mp hlt).1) hdepth
  rwa [hsame] at hparse

end Expr.Rereadable

namespace Formula
variable {formula name : String} {e first : Expr}

def FiniteLiterals (formula : String) : Prop :=
  ∀ tokens, tokenize formula = .ok tokens → ∀ t ∈ tokens, t.kind = .number →
    ∀ x ∈ literalValue? t.text.toList, x.isInf = false

theorem rereadable_of_parse (hparse : Expr.parse formula = .ok e)
    (hfinite : FiniteLiterals formula) : e.Rereadable where
  names := wellNamed_of_parseWithin hparse
  constants x hx := by
    obtain ⟨hsign, hcode⟩ := constants_of_parseWithin hparse x hx
    obtain ⟨tokens, htokens, t, ht, hnumber, hvalue⟩ := exists_token_of_constant hparse hx
    have hne := hfinite tokens htokens t ht hnumber x hvalue
    rw [← Bool.not_eq_true, isInf_iff] at hne
    exact ⟨hsign, by omega⟩

theorem derivative_eq_render (hparse : Expr.parse formula = .ok e)
    (hfirst : e.derivative name = .ok first) : derivative name formula = .ok first.render := by
  rw [derivative, hparse, ok_bind, hfirst, ok_bind, pure_eq_ok]

/-- The derivative of a formula taken a number of times, each time through its text. -/
def derivativeTimes (name : String) : Nat → String → Except Diagnostic String
  | 0, formula => .ok formula
  | times + 1, formula => (derivative name formula).bind (derivativeTimes name times)

/-- One derivative through text is one derivative of the expression, whose text is read again if
it is not too deep; so a run of derivatives through text follows the run on expressions. -/
theorem derivativeTimes_of_parse {times : Nat} (hparse : Expr.parse formula = .ok e)
    (he : e.Rereadable) (hfirst : e.derivative name = .ok first)
    (hdepth : ∀ i d, 1 ≤ i → i ≤ times → e.derivativeTimes name i = .ok d →
      d.depth ≤ defaultDepthLimit) :
    ∃ d, e.derivativeTimes name (times + 1) = .ok d ∧ d.Rereadable ∧
      derivativeTimes name (times + 1) formula = .ok d.render := by
  induction times generalizing formula e first with
  | zero =>
    refine ⟨first, ?_, he.derivative hfirst, ?_⟩
    · rw [Expr.derivativeTimes, hfirst]
      rfl
    · rw [derivativeTimes, derivative_eq_render hparse hfirst]
      rfl
  | succ times ih =>
    have hagain : Expr.parse first.render = .ok first := by
      refine (he.derivative hfirst).parseWithin_render (hdepth 1 first (by omega) (by omega) ?_)
      simp [Expr.derivativeTimes, hfirst]
    obtain ⟨second, hsecond⟩ := Expr.exists_derivative_of_derivative hfirst hfirst
    obtain ⟨d, hd, hreread, htext⟩ := ih hagain (he.derivative hfirst) hsecond
      fun i d hpos hle hi => hdepth (i + 1) d (by omega) (by omega)
        (by simpa [Expr.derivativeTimes, hfirst] using hi)
    refine ⟨d, ?_, hreread, ?_⟩
    · rw [Expr.derivativeTimes, hfirst]
      exact hd
    · rw [derivativeTimes, derivative_eq_render hparse hfirst]
      exact htext

/-- Differentiating a formula through text any number of times gives the text of the derivative of
its expression, if the literals are finite and the derivatives read again are within the depth
limit. Where the last one is too, that text has the value and the numeric derivatives of the
expression, or the same fault, under all bindings. -/
theorem derivativeTimes_through_text {times : Nat} (hparse : Expr.parse formula = .ok e)
    (hfinite : FiniteLiterals formula) (hfirst : e.derivative name = .ok first)
    (hdepth : ∀ i d, 1 ≤ i → i ≤ times → e.derivativeTimes name i = .ok d →
      d.depth ≤ defaultDepthLimit) :
    ∃ d, e.derivativeTimes name (times + 1) = .ok d ∧
      derivativeTimes name (times + 1) formula = .ok d.render ∧
      (d.depth ≤ defaultDepthLimit → ∀ bindings : Bindings Float,
        evaluate bindings d.render = d.evaluate bindings ∧
        ∀ other, slope other bindings d.render = d.slope other bindings) := by
  obtain ⟨d, hd, hreread, htext⟩ :=
    derivativeTimes_of_parse hparse (rereadable_of_parse hparse hfinite) hfirst hdepth
  refine ⟨d, hd, htext, fun hlimit bindings => ?_⟩
  have hagain : Expr.parse d.render = .ok d := hreread.parseWithin_render hlimit
  refine ⟨?_, fun other => ?_⟩
  · rw [evaluate, hagain, ok_bind]
  · rw [slope, hagain, ok_bind]

/-- The second derivative of two and a half times the cube of `x`. -/
theorem derivativeTimes_through_text_cube :
    let formula := "2.5*x**3"
    let e := Expr.mul (.constant 2.5) (.pow (.variable "x") (.constant 3.0))
    Expr.parse formula = .ok e ∧ FiniteLiterals formula ∧
      ∃ d, e.derivativeTimes "x" 2 = .ok d ∧ derivativeTimes "x" 2 formula = .ok d.render ∧
        d.depth ≤ defaultDepthLimit ∧ ∀ bindings : Bindings Float,
          evaluate bindings d.render = d.evaluate bindings ∧
          ∀ other, slope other bindings d.render = d.slope other bindings := by
  intro formula e
  have hparse : Expr.parse formula = .ok e := by decide +kernel
  have htokens : tokenize formula =
      .ok [⟨.number, "2.5", 0⟩, ⟨.operator .mul, "*", 3⟩, ⟨.name, "x", 4⟩,
        ⟨.operator .pow, "**", 5⟩, ⟨.number, "3", 7⟩, ⟨.finish, "", 8⟩] := by decide +kernel
  have hfinite : FiniteLiterals formula := by
    intro tokens h
    obtain rfl := Except.ok.inj (htokens.symm.trans h)
    decide +kernel
  have hfirst : e.derivative "x" = .ok _ := rfl
  have hbelow : ∀ i d, 1 ≤ i → i ≤ 1 → e.derivativeTimes "x" i = .ok d →
      d.depth ≤ defaultDepthLimit := by
    intro i d hpos hle hi
    obtain rfl : i = 1 := by omega
    obtain rfl := Except.ok.inj hi
    decide
  obtain ⟨d, hd, htext, hvalues⟩ := derivativeTimes_through_text hparse hfinite hfirst hbelow
  have hdepth : d.depth ≤ defaultDepthLimit := by
    obtain rfl := Except.ok.inj hd
    decide
  exact ⟨hparse, hfinite, d, hd, htext, hdepth, hvalues hdepth⟩

end Formula
end Fluxion
