import Fluxion.Proofs.Derivative.Agreement
import Fluxion.Proofs.Program.Simulation

/-! Without powers the ways to differentiate agree in every bit. They do the same operations, up to
the order of one sum, and sums of doubles commute whatever they are sums of. -/
namespace Fluxion
open Float.Model (Format UnpackedFloat)

/-- A sum does not depend on the order of its terms, also where it is rounded, infinite or no
number. -/
theorem unpacked_add_comm (format : Format) (a b : UnpackedFloat) :
    UnpackedFloat.add format a b = UnpackedFloat.add format b a := by
  cases a with
  | notANumber => cases b <;> rfl
  | infinity s =>
    cases b with
    | infinity t => cases s <;> cases t <;> rfl
    | _ => rfl
  | zero s =>
    cases b with
    | zero t => cases s <;> cases t <;> rfl
    | _ => rfl
  | finite s m e hm =>
    cases b with
    | finite t n f hn => simp only [UnpackedFloat.add, Int.min_comm e f, Int.add_comm]
    | _ => rfl

theorem double_add_comm (a b : Float) : a + b = b + a :=
  congrArg (Float.ofModel ∘ Float.Model.pack)
    (unpacked_add_comm .binary64 a.toModel.unpack b.toModel.unpack)

theorem single_add_comm (a b : Float32) : a + b = b + a :=
  congrArg (Float32.ofModel ∘ Float32.Model.pack)
    (unpacked_add_comm .binary32 a.toModel.unpack b.toModel.unpack)

/-- Parameters without repetitions, paired with a point that has a value for each of them, give
the names the values that programs read. -/
theorem lookup_zip {parameters : List String} {point : List Float} (hdistinct : parameters.Nodup)
    (hlength : parameters.length ≤ point.length) (name : String) :
    Bindings.lookup name (parameters.zip point) = positional parameters point name := by
  induction parameters generalizing point with
  | nil => rfl
  | cons first rest ih =>
    cases point with
    | nil => simp at hlength
    | cons value values =>
      -- Bindings give the last value of a name, programs read its first parameter.
      obtain ⟨hfirst, hrest⟩ := List.nodup_cons.mp hdistinct
      rw [List.zip_cons_cons, Bindings.lookup, ih hrest (by simpa using hlength)]
      by_cases hname : first = name
      · subst hname
        simp [positional, hfirst]
      · have hne : name ≠ first := Ne.symm hname
        by_cases hmem : name ∈ rest <;>
          simp [positional, hmem, hname, hne, List.idxOf_cons_ne rest hname]

namespace Expr
variable {e : Expr}

/-- Without powers nothing is refused. -/
theorem exists_derivative_of_no_power (hfree : ∀ node ∈ e.preorder, node.isPower = false)
    (name : String) : ∃ d, e.derivative name = .ok d := by
  rw [derivative_isOk_iff, ← Option.not_isSome_iff_eq_none, firstDependent?_isSome_iff]
  rintro ⟨path, base, exponent, hpath, -⟩
  cases hfree _ (mem_preorder_iff.mpr ⟨path, hpath⟩)

/-- Where sums commute, a derivative without powers evaluates to the part of `ε`. -/
theorem derivesTo_of_no_power {α : Type} [Scalar α] (hcomm : ∀ a b : α, a + b = b + a)
    (hfree : ∀ node ∈ e.preorder, node.isPower = false) {name : String}
    {lookup : String → Option α} {v : Dual α}
    (hv : e.evaluateWith (seeded name lookup) = .ok v) : e.DerivesTo name lookup v :=
  derivesTo_of_powers hcomm hv fun hmem _ _ _ => nomatch hfree _ hmem

/-- Under bindings of doubles the numeric derivative is the value of the symbolic one. -/
theorem slope_of_no_power (hfree : ∀ node ∈ e.preorder, node.isPower = false) {name : String}
    {d : Expr} (hd : e.derivative name = .ok d) {bindings : Bindings Float}
    (he : e.BoundBy bindings.lookup) :
    ∃ value, e.slope name bindings = .ok value ∧ d.evaluate bindings = .ok value := by
  obtain ⟨v, hv⟩ := exists_seeded he name
  refine ⟨v.eps, ?_, derivesTo_of_no_power double_add_comm hfree hv d hd⟩
  rw [slope, hv]
  rfl

/-- A program of the derivative gives the numeric derivative at each point that is long enough. -/
theorem slope_eq_run (hfree : ∀ node ∈ e.preorder, node.isPower = false) {name : String} {d : Expr}
    (hd : e.derivative name = .ok d) {parameters : List String} (hdistinct : parameters.Nodup)
    (hparameters : ∀ other ∈ e.names, other ∈ parameters) {program : Program}
    (hprogram : d.compile parameters = .ok program) {point : List Float}
    (hlength : parameters.length ≤ point.length) {bindings : Bindings Float}
    (hbindings : ∀ other ∈ e.names,
      bindings.lookup other = Bindings.lookup other (parameters.zip point)) :
    e.slope name bindings = .ok (program.run point) ∧
      d.evaluate bindings = .ok (program.run point) := by
  have hpositional : ∀ other ∈ e.names,
      bindings.lookup other = positional parameters point other := by
    intro other hother
    rw [hbindings other hother, lookup_zip hdistinct hlength]
  have hbound : e.BoundBy bindings.lookup := by
    intro other hother
    change (Bindings.lookup other bindings).isSome
    rw [hpositional other hother]
    exact positional_isSome.mpr (hparameters other hother)
  have hrun : d.evaluate bindings = .ok (program.run point) := by
    rw [evaluate, evaluateWith_congr fun other hother =>
      hpositional other (names_of_derivative hd hother)]
    exact evaluateWith_positional hprogram point
  obtain ⟨value, hslope, hvalue⟩ := slope_of_no_power hfree hd hbound
  obtain rfl := Except.ok.inj (hvalue.symm.trans hrun)
  exact ⟨hslope, hrun⟩

/-- An expression without powers has every derivative. Its value is the part of `ε` of the seeded
dual evaluation, over any scalars whose sums commute. Doubles and singles are such scalars, so under
bindings of doubles the symbolic and the numeric derivative are the same double, and so is the entry
of a batch at a point with these values. -/
theorem derivative_agrees_without_powers (e : Expr)
    (hfree : ∀ node ∈ e.preorder, node.isPower = false) (name : String) :
    (∀ a b : Float, a + b = b + a) ∧ (∀ a b : Float32, a + b = b + a) ∧
    ∃ d, e.derivative name = .ok d ∧
      (∀ {α : Type} [Scalar α], (∀ a b : α, a + b = b + a) →
        ∀ lookup : String → Option α, e.BoundBy lookup →
          ∃ v : Dual α, e.evaluateWith (seeded name lookup) = .ok v ∧
            d.evaluateWith lookup = .ok v.eps) ∧
      (∀ bindings : Bindings Float, e.BoundBy bindings.lookup →
        ∃ value, e.slope name bindings = .ok value ∧ d.evaluate bindings = .ok value) ∧
      ∀ (parameters : List String) (points : List (List Float)), parameters.Nodup →
        (∀ other ∈ e.names, other ∈ parameters) →
        (∀ point ∈ points, parameters.length ≤ point.length) →
          ∃ values, e.derivativeAt name parameters points = .ok values ∧
            List.Forall₂ (fun point value => ∀ bindings : Bindings Float,
              (∀ other ∈ e.names,
                bindings.lookup other = Bindings.lookup other (parameters.zip point)) →
                e.slope name bindings = .ok value ∧ d.evaluate bindings = .ok value)
              points values := by
  obtain ⟨d, hd⟩ := exists_derivative_of_no_power hfree name
  refine ⟨double_add_comm, single_add_comm, d, hd, ?_, fun _ => slope_of_no_power hfree hd, ?_⟩
  · intro α _ hcomm lookup he
    obtain ⟨v, hv⟩ := exists_seeded he name
    exact ⟨v, hv, derivesTo_of_no_power hcomm hfree hv d hd⟩
  · intro parameters points hdistinct hparameters hlengths
    obtain ⟨program, hprogram⟩ := compile_isOk_iff.mpr fun other hother =>
      hparameters other (names_of_derivative hd hother)
    refine ⟨points.map program.run, ?_, ?_⟩
    · rw [derivativeAt, hd, ok_bind, evaluateAt, hprogram]
      rfl
    · rw [List.forall₂_map_right_iff, List.forall₂_same]
      exact fun point hpoint _ =>
        slope_eq_run hfree hd hdistinct hparameters hprogram (hlengths point hpoint)

/-- The quotient of `x * y` and `x - y`, in integers where `x` is two and `y` is five, and in
doubles where `x` is zero and `y` is infinite, which is also the first of two points. -/
theorem derivative_agrees_without_powers_quotient :
    letI := integerScalar
    let x := Expr.variable "x"
    let y := Expr.variable "y"
    let quotient := div (mul x y) (sub x y)
    let lookup : String → Option Int := fun other => if other = "x" then some 2 else some 5
    let bindings : Bindings Float := [("y", 1.0 / 0.0), ("x", 0.0)]
    let points : List (List Float) := [[0.0, 1.0 / 0.0], [2.0, 3.0, 7.0]]
    (∀ node ∈ quotient.preorder, node.isPower = false) ∧
      ∃ d, quotient.derivative "x" = .ok d ∧
        (∃ v : Dual Int, quotient.evaluateWith (seeded "x" lookup) = .ok v ∧
          d.evaluateWith lookup = .ok v.eps) ∧
        ∃ value second : Float, quotient.slope "x" bindings = .ok value ∧
          d.evaluate bindings = .ok value ∧
          quotient.derivativeAt "x" ["x", "y"] points = .ok [value, second] := by
  let _ := integerScalar
  intro x y quotient lookup bindings points
  have hfree : ∀ node ∈ quotient.preorder, node.isPower = false := by decide
  have hbound : quotient.BoundBy lookup := by
    intro other _
    by_cases hname : other = "x" <;> simp [lookup, hname]
  obtain ⟨-, -, d, hd, hscalars, -, hbatch⟩ := derivative_agrees_without_powers quotient hfree "x"
  have hinteger := hscalars LawfulScalar.add_comm lookup hbound
  obtain ⟨values, hvalues, hpoints⟩ :=
    hbatch ["x", "y"] points (by decide) (by decide) (by decide)
  obtain ⟨value, rest, hfirst, hrest, rfl⟩ := List.forall₂_cons_left_iff.mp hpoints
  obtain ⟨second, last, -, hlast, rfl⟩ := List.forall₂_cons_left_iff.mp hrest
  obtain rfl := List.forall₂_nil_left_iff.mp hlast
  obtain ⟨hslope, hvalue⟩ := hfirst bindings (by decide)
  exact ⟨hfree, d, hd, hinteger, value, second, hslope, hvalue, hvalues⟩

end Expr
end Fluxion
