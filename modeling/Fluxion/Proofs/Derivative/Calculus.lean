import Mathlib
import Fluxion.Expr.Subtree
import Fluxion.Proofs.Derivative.Agreement
import Fluxion.Proofs.Scalar.Real

/-! Over the reals both derivatives, the numeric and the symbolic one, are the derivative of the
value as a function of the name. -/
namespace Fluxion

namespace Dual

/-- Over the reals the terms that the power rule leaves out are zero. -/
theorem real_pow_eps (a b : Dual ℝ) :
    (pow a b).eps = b.val * a.val ^ (b.val - 1) * a.eps +
      a.val ^ b.val * Real.log a.val * b.eps := by
  have hpow (x y : ℝ) : Scalar.pow x y = x ^ y := rfl
  have hln (x : ℝ) : Scalar.ln x = Real.log x := rfl
  simp only [pow, hpow, hln, real_zero, real_one, bne_iff_ne, ne_eq, ite_not]
  by_cases ha : a.eps = 0 <;> by_cases hb : b.eps = 0 <;> simp [ha, hb]

/-- Each operator on dual numbers differentiates the operator on functions, away from zero
denominators and from bases that are not positive. -/
theorem hasDerivAt_apply {op : Operator} {f g : ℝ → ℝ} {a b : Dual ℝ} {point : ℝ}
    (hf : HasDerivAt f a.eps point) (hfa : f point = a.val) (hg : HasDerivAt g b.eps point)
    (hgb : g point = b.val) (hdiv : op = .div → b.val ≠ 0) (hpow : op = .pow → 0 < a.val) :
    HasDerivAt (fun t => op.apply (f t) (g t)) (op.apply a b).eps point := by
  cases op with
  | add => exact hf.add hg
  | sub => exact hf.sub hg
  | mul =>
    change HasDerivAt (f * g) (a.val * b.eps + a.eps * b.val) point
    refine (hf.mul hg).congr_deriv ?_
    rw [hfa, hgb, add_comm]
  | div =>
    change HasDerivAt (f / g) ((a.eps * b.val - a.val * b.eps) / (b.val * b.val)) point
    refine (hf.div hg (hgb ▸ hdiv rfl)).congr_deriv ?_
    rw [hfa, hgb, sq]
  | pow =>
    change HasDerivAt (fun t => f t ^ g t) (pow a b).eps point
    refine (hf.rpow hg (hfa ▸ hpow rfl)).congr_deriv ?_
    rw [hfa, hgb, real_pow_eps]
    ring

end Dual

namespace Expr
variable {name : String} {lookup : String → Option ℝ} {point : ℝ}

/-- Whether the value depends on the name smoothly at this place: where the name occurs in a
quotient the denominator is not zero, and where it occurs in a power the base is positive. -/
structure SmoothAt (name : String) (lookup : String → Option ℝ) (e : Expr) : Prop where
  denominator : ∀ path l r, e.subtree? path = some (.binary .div l r) →
    (binary .div l r).mentions name = true → ∃ b, r.evaluateWith lookup = .ok b ∧ b ≠ 0
  base : ∀ path l r, e.subtree? path = some (.binary .pow l r) →
    (binary .pow l r).mentions name = true → ∃ a, l.evaluateWith lookup = .ok a ∧ 0 < a

namespace SmoothAt
variable {op : Operator} {l r : Expr}

theorem left (h : (binary op l r).SmoothAt name lookup) : l.SmoothAt name lookup where
  denominator path := h.denominator (.left :: path)
  base path := h.base (.left :: path)

theorem right (h : (binary op l r).SmoothAt name lookup) : r.SmoothAt name lookup where
  denominator path := h.denominator (.right :: path)
  base path := h.base (.right :: path)

theorem ofVariable (other : String) : («variable» other).SmoothAt name lookup where
  denominator path _ _ h := by cases path with
    | nil => cases h
    | cons side path => cases side <;> cases h
  base path _ _ h := by cases path with
    | nil => cases h
    | cons side path => cases side <;> cases h

/-- A node adds at most one condition to those of its operands. -/
theorem node (hl : l.SmoothAt name lookup) (hr : r.SmoothAt name lookup)
    (hdiv : op = .div → ∃ b, r.evaluateWith lookup = .ok b ∧ b ≠ 0)
    (hpow : op = .pow → ∃ a, l.evaluateWith lookup = .ok a ∧ 0 < a) :
    (binary op l r).SmoothAt name lookup where
  denominator path l' r' h hmentions := by
    match path, h with
    | [], h =>
      cases h
      exact hdiv rfl
    | .left :: path, h => exact hl.denominator path l' r' h hmentions
    | .right :: path, h => exact hr.denominator path l' r' h hmentions
  base path l' r' h hmentions := by
    match path, h with
    | [], h =>
      cases h
      exact hpow rfl
    | .left :: path, h => exact hl.base path l' r' h hmentions
    | .right :: path, h => exact hr.base path l' r' h hmentions

end SmoothAt

def rebound (name : String) (lookup : String → Option ℝ) (value : ℝ) : String → Option ℝ :=
  Function.update lookup name (some value)

theorem evaluateWith_rebound {e : Expr} (he : e.mentions name = false) (value : ℝ) :
    e.evaluateWith (rebound name lookup value) = e.evaluateWith lookup := by
  refine evaluateWith_congr fun other hother => Function.update_of_ne ?_ _ _
  rintro rfl
  exact Bool.eq_false_iff.mp he (mentions_iff.mpr hother)

/-- The function `f` gives the value of an expression as one name runs through the reals, and `v`
is its dual value where the name stands at `point`. -/
structure Tracks (name : String) (lookup : String → Option ℝ) (point : ℝ) (e : Expr) (f : ℝ → ℝ)
    (v : Dual ℝ) : Prop where
  along : ∀ t, e.evaluateWith (rebound name lookup t) = .ok (f t)
  dual : e.evaluateWith (seeded name lookup) = .ok v
  plain : e.evaluateWith lookup = .ok v.val
  value : f point = v.val
  still : e.mentions name = false → v.eps = Scalar.zero
  slope : HasDerivAt f v.eps point
  derives : e.DerivesTo name lookup v

theorem tracks_constant (c : Float) :
    (constant c).Tracks name lookup point (fun _ => Scalar.ofDouble c)
      (Dual.constant (Scalar.ofDouble c)) where
  along _ := rfl
  dual := rfl
  plain := rfl
  value := rfl
  still _ := rfl
  slope := by simpa [Dual.constant] using hasDerivAt_const point (Scalar.ofDouble c : ℝ)
  derives d hd := by
    obtain rfl := Except.ok.inj hd
    rfl

theorem tracks_seed (h : lookup name = some point) :
    («variable» name).Tracks name lookup point id (Dual.seed point) where
  along t := by simp [evaluateWith, rebound]
  dual := by simp [evaluateWith, seeded, h]
  plain := by simp [evaluateWith, h, Dual.seed]
  value := rfl
  still hstill := by simp [mentions] at hstill
  slope := by simpa [Dual.seed] using hasDerivAt_id point
  derives d hd := by
    obtain rfl : constant 1.0 = d := by simpa [derivative] using hd
    rfl

theorem tracks_variable {other : String} {a : ℝ} (hne : other ≠ name)
    (ha : lookup other = some a) :
    («variable» other).Tracks name lookup point (fun _ => a) (Dual.constant a) where
  along t := by simp [evaluateWith, rebound, Function.update_of_ne hne, ha]
  dual := by simp [evaluateWith, seeded, ha, hne]
  plain := by simp [evaluateWith, ha, Dual.constant]
  value := rfl
  still _ := rfl
  slope := by simpa [Dual.constant] using hasDerivAt_const point a
  derives d hd := by
    obtain rfl : constant 0.0 = d := by simpa [derivative, hne] using hd
    rfl

section
variable {op : Operator} {l r : Expr} {f g : ℝ → ℝ} {a b : Dual ℝ}

/-- Where the name does not occur, the function is constant, whatever the operator. -/
theorem Tracks.eq_const (h : l.Tracks name lookup point f a) (hl : l.mentions name = false) :
    f = fun _ => a.val := by
  funext t
  have hplain := h.plain
  rw [← evaluateWith_rebound hl t, h.along t] at hplain
  exact Except.ok.inj hplain

theorem Tracks.derivesTo_binary (hl : l.Tracks name lookup point f a)
    (hr : r.Tracks name lookup point g b) :
    (binary op l r).DerivesTo name lookup (op.apply a b) :=
  Expr.derivesTo_binary hl.plain hr.plain add_comm hl.derives hr.derives fun _ =>
    derivesTo_pow hl.plain hr.plain hl.derives hl.still hr.still

/-- The domain conditions are needed only where the name occurs. -/
theorem Tracks.hasDerivAt_binary (hl : l.Tracks name lookup point f a)
    (hr : r.Tracks name lookup point g b) (hsmooth : (binary op l r).SmoothAt name lookup) :
    HasDerivAt (fun t => op.apply (f t) (g t)) (op.apply a b).eps point := by
  cases hmentions : (binary op l r).mentions name with
  | false =>
    obtain ⟨hlm, hrm⟩ := Bool.or_eq_false_iff.mp hmentions
    rw [hl.eq_const hlm, hr.eq_const hrm,
      Dual.apply_eps_of_unchanged op (hl.still hlm) (hr.still hrm), real_zero]
    exact hasDerivAt_const point _
  | true =>
    refine Dual.hasDerivAt_apply hl.slope hl.value hr.slope hr.value ?_ ?_
    · rintro rfl
      obtain ⟨y, hy, hne⟩ := hsmooth.denominator [] l r rfl hmentions
      obtain rfl := Except.ok.inj (hr.plain.symm.trans hy)
      exact hne
    · rintro rfl
      obtain ⟨x, hx, hpos⟩ := hsmooth.base [] l r rfl hmentions
      obtain rfl := Except.ok.inj (hl.plain.symm.trans hx)
      exact hpos

theorem Tracks.binary (hl : l.Tracks name lookup point f a) (hr : r.Tracks name lookup point g b)
    (hsmooth : (binary op l r).SmoothAt name lookup) :
    (binary op l r).Tracks name lookup point (fun t => op.apply (f t) (g t)) (op.apply a b) where
  along t := evaluateWith_binary (hl.along t) (hr.along t)
  dual := evaluateWith_binary hl.dual hr.dual
  plain := by
    rw [Dual.apply_val]
    exact evaluateWith_binary hl.plain hr.plain
  value := by rw [Dual.apply_val, hl.value, hr.value]
  still hstill := by
    obtain ⟨hlm, hrm⟩ := Bool.or_eq_false_iff.mp hstill
    exact Dual.apply_eps_of_unchanged op (hl.still hlm) (hr.still hrm)
  slope := hl.hasDerivAt_binary hr hsmooth
  derives := hl.derivesTo_binary hr

end

theorem exists_tracks {e : Expr} (he : e.BoundBy lookup) (hpoint : ∀ a ∈ lookup name, a = point)
    (hsmooth : e.SmoothAt name lookup) : ∃ f v, e.Tracks name lookup point f v := by
  induction e with
  | constant c => exact ⟨_, _, tracks_constant c⟩
  | «variable» other =>
    obtain ⟨a, ha⟩ := Option.isSome_iff_exists.mp (he other (by simp [names]))
    by_cases hname : other = name
    · subst hname
      obtain rfl := hpoint a ha
      exact ⟨_, _, tracks_seed ha⟩
    · exact ⟨_, _, tracks_variable hname ha⟩
  | binary op l r ihl ihr =>
    obtain ⟨hl, hr⟩ := boundBy_binary.mp he
    obtain ⟨f, a, hf⟩ := ihl hl hsmooth.left
    obtain ⟨g, b, hg⟩ := ihr hr hsmooth.right
    exact ⟨_, _, hf.binary hg hsmooth⟩

/-- Where the value depends smoothly on a name, it is a differentiable function of that name, its
derivative is the part of `ε` that dual numbers compute, and a symbolic derivative has that value
too. If the name has no value, `point` may be any number. -/
theorem evaluateWith_hasDerivAt {e : Expr} (he : e.BoundBy lookup)
    (hpoint : ∀ a ∈ lookup name, a = point) (hsmooth : e.SmoothAt name lookup) :
    ∃ (f : ℝ → ℝ) (v : Dual ℝ), (∀ t, e.evaluateWith (rebound name lookup t) = .ok (f t)) ∧
      e.evaluateWith (seeded name lookup) = .ok v ∧ HasDerivAt f v.eps point ∧
      ∀ d, e.derivative name = .ok d → d.evaluateWith lookup = .ok v.eps := by
  obtain ⟨f, v, h⟩ := exists_tracks he hpoint hsmooth
  exact ⟨f, v, h.along, h.dual, h.slope, h.derives⟩

/-- The quotient of `x ^ y` and `x`, where `x` is two and `y` is three. -/
theorem evaluateWith_hasDerivAt_quotient :
    let lookup : String → Option ℝ := fun other => if other = "x" then some 2 else some 3
    let quotient := div (pow (.variable "x") (.variable "y")) (.variable "x")
    quotient.BoundBy lookup ∧ (∀ a ∈ lookup "x", a = 2) ∧ quotient.SmoothAt "x" lookup ∧
      ∃ (f : ℝ → ℝ) (v : Dual ℝ),
        (∀ t, quotient.evaluateWith (rebound "x" lookup t) = .ok (f t)) ∧
          quotient.evaluateWith (seeded "x" lookup) = .ok v ∧ HasDerivAt f v.eps 2 ∧
          ∀ d, quotient.derivative "x" = .ok d → d.evaluateWith lookup = .ok v.eps := by
  intro lookup quotient
  have hbound : quotient.BoundBy lookup := by
    intro other _
    by_cases hname : other = "x" <;> simp [lookup, hname]
  have hpoint : ∀ a ∈ lookup "x", a = 2 := by simp [lookup]
  have hx : («variable» "x").evaluateWith lookup = .ok 2 := by simp [evaluateWith, lookup]
  have hpower : (pow (.variable "x") (.variable "y")).SmoothAt "x" lookup :=
    .node (.ofVariable "x") (.ofVariable "y") (by simp) (fun _ => ⟨2, hx, by norm_num⟩)
  have hsmooth : quotient.SmoothAt "x" lookup :=
    .node hpower (.ofVariable "x") (fun _ => ⟨2, hx, by norm_num⟩) (by simp)
  exact ⟨hbound, hpoint, hsmooth, evaluateWith_hasDerivAt hbound hpoint hsmooth⟩

end Expr
end Fluxion
