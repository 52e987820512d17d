import Fluxion.Proofs.Derivative.Refusal
import Fluxion.Proofs.Expr.Rendering

/-! Derivatives taken one after another, for any names in any order. What can be differentiated for
each of the names can be differentiated for all of them in turn, and the constants of what comes out
are old ones, zeros and ones. -/
namespace Fluxion.Expr

def derivativeAlong : List String → Expr → Except Diagnostic Expr
  | [], e => .ok e
  | name :: names, e => (e.derivative name).bind (derivativeAlong names)

/-- What is enough for one derivative, and is kept by it, is enough for any succession of them. -/
theorem derivativeAlong_preserves {P : Expr → Prop} {names : List String}
    (hstep : ∀ name ∈ names, ∀ e, P e → ∃ d, e.derivative name = .ok d ∧ P d) {e : Expr}
    (he : P e) : ∃ d, e.derivativeAlong names = .ok d ∧ P d := by
  induction names generalizing e with
  | nil => exact ⟨e, rfl, he⟩
  | cons name names ih =>
    obtain ⟨d, hd, hP⟩ := hstep name (List.mem_cons_self ..) e he
    have hrest : ∀ other ∈ names, ∀ e, P e → ∃ d, e.derivative other = .ok d ∧ P d :=
      fun other hother => hstep other (List.mem_cons_of_mem _ hother)
    obtain ⟨last, hlast, hP⟩ := ih hrest hP
    refine ⟨last, ?_, hP⟩
    rw [derivativeAlong, hd]
    exact hlast

/-- What all constants of an expression have, and zero and one as well, those of its derivative
have. -/
theorem constants_of_derivative {Q : Float → Prop} (hzero : Q 0.0) (hone : Q 1.0) {name : String}
    {e d : Expr} (he : ∀ x ∈ e.constants, Q x) (hd : e.derivative name = .ok d) :
    ∀ x ∈ d.constants, Q x := by
  refine derivative_preserves_leaves (P := fun part => ∀ x ∈ part.constants, Q x) ?_ ?_ ?_ he hd
  · simpa [constants] using hzero
  · simpa [constants] using hone
  · simp only [constants, List.mem_append, or_imp, forall_and, implies_true]

/-- If an expression has a derivative for each of some names, then it can be differentiated for one
of them after another: every derivative on the way is there, and each of its constants is one of the
expression, zero or one. -/
theorem derivativeAlong_closed {names : List String} {e : Expr}
    (h : ∀ name ∈ names, ∃ d, e.derivative name = .ok d) :
    ∀ done, done <+: names → ∃ d, e.derivativeAlong done = .ok d ∧
      ∀ x ∈ d.constants, x ∈ e.constants ∨ x = 0.0 ∨ x = 1.0 := by
  intro done hdone
  -- No exponent comes to contain any of the names, not even those still to come.
  obtain ⟨d, hd, -, hconstants⟩ : ∃ d, e.derivativeAlong done = .ok d ∧
      (∀ name ∈ names, d.firstDependent? name = none) ∧
      ∀ x ∈ d.constants, x ∈ e.constants ∨ x = 0.0 ∨ x = 1.0 := by
    refine derivativeAlong_preserves ?_ ?_
    · rintro name hname part ⟨hfree, hconstants⟩
      obtain ⟨d, hd⟩ := derivative_isOk_iff.mpr (hfree name (hdone.subset hname))
      exact ⟨d, hd, fun other hother => firstDependent?_of_derivative (hfree other hother) hd,
        constants_of_derivative (.inr (.inl rfl)) (.inr (.inr rfl)) hconstants hd⟩
    · exact ⟨fun name hname => derivative_isOk_iff.mp (h name hname), fun x hx => .inl hx⟩
  exact ⟨d, hd, hconstants⟩

/-- The power of `x / y` with exponent `z`, for `x`, `y` and `x` again. -/
theorem derivativeAlong_closed_power :
    let power := pow (div (.variable "x") (mul (.variable "y") (.constant 2.5))) (.variable "z")
    (∀ name ∈ ["x", "y", "x"], ∃ d, power.derivative name = .ok d) ∧
      ∀ done, done <+: ["x", "y", "x"] → ∃ d, power.derivativeAlong done = .ok d ∧
        ∀ x ∈ d.constants, x ∈ power.constants ∨ x = 0.0 ∨ x = 1.0 := by
  intro power
  have hx : power.derivative "x" = .ok _ := rfl
  have hy : power.derivative "y" = .ok _ := rfl
  have h : ∀ name ∈ ["x", "y", "x"], ∃ d, power.derivative name = .ok d := by
    simp only [List.mem_cons, List.not_mem_nil, or_false]
    rintro name (rfl | rfl | rfl)
    · exact ⟨_, hx⟩
    · exact ⟨_, hy⟩
    · exact ⟨_, hx⟩
  exact ⟨h, derivativeAlong_closed h⟩

end Fluxion.Expr
