import Mathlib.Data.List.Forall2
import Fluxion.Batch
import Fluxion.Proofs.Expr.Evaluation

/-! A compiled program computes the value of its expression, at every point and on top of whatever
is on the stack; compilation fails exactly where evaluation does. -/
namespace Fluxion

def Expr.code {κ : Type} (parameters : List String) : Expr κ → List (Instruction κ)
  | .constant value => [.constant value]
  | .variable name => [.parameter (parameters.idxOf name)]
  | .binary op left right => left.code parameters ++ right.code parameters ++ [.apply op]

/-- The value that a point gives to a name: that of the first parameter of that name, or not a
number where the point is too short. -/
def positional (parameters : List String) (point : List Float) (name : String) : Option Float :=
  if name ∈ parameters then some (point.getD (parameters.idxOf name) Program.absent) else none

example : Program.absent.isNaN = true := by decide +kernel

theorem positional_isSome {parameters : List String} {point : List Float} {name : String} :
    (positional parameters point name).isSome ↔ name ∈ parameters := by
  unfold positional
  split <;> simp [*]

theorem findIdx?_name (parameters : List String) (name : String) :
    parameters.findIdx? (· == name) =
      if name ∈ parameters then some (parameters.idxOf name) else none := by
  split
  · next h =>
    exact List.findIdx?_eq_some_iff_findIdx_eq.mpr ⟨List.idxOf_lt_length_of_mem h, rfl⟩
  · next h =>
    rw [List.findIdx?_eq_none_iff]
    intro other hother
    simpa using ne_of_mem_of_not_mem hother h

namespace Emission
variable {κ : Type} {parameters : List String} {e : Expr κ} {s s' : Emission κ}

/-- What a name compiles to. -/
theorem emit_variable (name : String) (s : Emission κ) :
    emit parameters (.variable name) s =
      if name ∈ parameters then .ok (s.push (.parameter (parameters.idxOf name)))
      else .error (.unbound name) := by
  rw [emit, findIdx?_name]
  split <;> simp_all

/-- Compilation fails exactly at the first name that is no parameter. -/
theorem emit_eq_error_iff {fault : Diagnostic} :
    emit parameters e s = .error fault ↔
      e.missing? (fun name => !decide (name ∈ parameters)) = some fault := by
  induction e generalizing s fault with
  | constant c => simp [emit, Expr.missing?, Expr.names]
  | «variable» name =>
    by_cases h : name ∈ parameters <;> simp [emit_variable, Expr.missing?, Expr.names, h]
  | binary op l r ihl ihr =>
    rw [emit, Expr.missing?_binary]
    refine bind_eq_error_iff (fun _ => ihl) (fun s' _ => ?_) fault
    intro f
    cases hr : emit parameters r s' <;> simp [← ihr (s := s'), hr]

/-- What is emitted is the postfix form, one instruction after the other. -/
theorem emit_eq_ok (h : emit parameters e s = .ok s') : s' = (e.code parameters).foldl push s := by
  induction e generalizing s s' with
  | constant c =>
    obtain rfl := Except.ok.inj h
    rfl
  | «variable» name =>
    rw [emit_variable] at h
    split at h
    · obtain rfl := Except.ok.inj h
      rfl
    · cases h
  | binary op l r ihl ihr =>
    obtain ⟨sl, hl, h⟩ := bind_eq_ok.mp h
    obtain ⟨sr, hr, h⟩ := bind_eq_ok.mp h
    obtain rfl := Except.ok.inj h
    simp [Expr.code, ihl hl, ihr hr]

theorem push_instructions (s : Emission κ) (instruction : Instruction κ) :
    (s.push instruction).instructions.toList = s.instructions.toList ++ [instruction] := by
  unfold push
  split <;> simp

theorem foldl_push_instructions (code : List (Instruction κ)) (s : Emission κ) :
    (code.foldl push s).instructions.toList = s.instructions.toList ++ code := by
  induction code generalizing s with
  | nil => simp
  | cons instruction code ih => simp [ih, push_instructions]

end Emission

namespace Expr
variable {parameters : List String}

section
variable {κ : Type} {e : Expr κ}

theorem compile_eq_error_iff {fault : Diagnostic} :
    e.compile parameters = .error fault ↔
      e.missing? (fun name => !decide (name ∈ parameters)) = some fault := by
  rw [← Emission.emit_eq_error_iff (s := .empty), compile]
  cases Emission.emit parameters e .empty <;> simp

/-- An expression compiles exactly if each of its names is a parameter. -/
theorem compile_isOk_iff :
    (∃ program, e.compile parameters = .ok program) ↔ ∀ name ∈ e.names, name ∈ parameters := by
  simp only [exists_ok_iff, ne_eq, compile_eq_error_iff, ← Option.eq_none_iff_forall_ne_some,
    missing?_eq_none_iff, Bool.not_eq_false', decide_eq_true_eq]

theorem compile_instructions {program : Program κ} (h : e.compile parameters = .ok program) :
    program.instructions = e.code parameters := by
  obtain ⟨s, hs, h⟩ := bind_eq_ok.mp h
  obtain rfl := Except.ok.inj h
  rw [Emission.emit_eq_ok hs, Emission.foldl_push_instructions]
  rfl

end

variable {e : Expr}

/-- Compilation fails as evaluation does where exactly the parameters have values. -/
theorem evaluateWith_eq_error_iff_compile {α : Type} [Scalar α] {lookup : String → Option α}
    (hlookup : ∀ name, (lookup name).isSome ↔ name ∈ parameters) {fault : Diagnostic} :
    e.evaluateWith lookup = .error fault ↔ e.compile parameters = .error fault := by
  have hmissing : (fun name => (lookup name).isNone) = fun name => !decide (name ∈ parameters) := by
    funext name
    simp only [← hlookup, Bool.decide_eq_true, Option.not_isSome]
  rw [evaluateWith_eq_error_iff, compile_eq_error_iff, hmissing]

/-- The postfix form pushes the value of the expression and leaves the stack below alone. -/
theorem foldl_step_code {point : List Float} {value : Float}
    (h : e.evaluateWith (positional parameters point) = .ok value) (stack : List Float) :
    (e.code parameters).foldl (Program.step point) stack = value :: stack := by
  induction e generalizing value stack with
  | constant c =>
    obtain rfl := Except.ok.inj h
    rfl
  | «variable» name =>
    by_cases hname : name ∈ parameters
    · obtain rfl : point.getD (parameters.idxOf name) Program.absent = value := by
        simpa [evaluateWith, positional, hname] using h
      simp [code, Program.step]
    · simp [evaluateWith, positional, hname] at h
  | binary op l r ihl ihr =>
    obtain ⟨a, hl, h⟩ := bind_eq_ok.mp h
    obtain ⟨b, hr, h⟩ := bind_eq_ok.mp h
    obtain rfl := Except.ok.inj h
    simp [code, ihl hl, ihr hr, Program.step]

/-- A compiled program gives the value of the expression at the point, whatever its length. -/
theorem evaluateWith_positional {program : Program} (h : e.compile parameters = .ok program)
    (point : List Float) :
    e.evaluateWith (positional parameters point) = .ok (program.run point) := by
  cases hvalue : e.evaluateWith (positional parameters point) with
  | error fault =>
    rw [evaluateWith_eq_error_iff_compile fun _ => positional_isSome, h] at hvalue
    cases hvalue
  | ok value =>
    rw [Program.run, compile_instructions h, foldl_step_code hvalue]
    rfl

/-- Compilation fails as evaluation does where exactly the parameters have values. Otherwise the
program gives the value of the expression at each point, in which a name stands for its first
parameter, and a batch gives these values in the order of the points. -/
theorem compile_agrees (parameters : List String) (e : Expr) :
    (∀ {α : Type} [Scalar α] (lookup : String → Option α),
      (∀ name, (lookup name).isSome ↔ name ∈ parameters) → ∀ fault,
        e.compile parameters = .error fault ↔ e.evaluateWith lookup = .error fault) ∧
    (∀ fault, e.compile parameters = .error fault →
      (∃ name, fault = .unbound name) ∧
        ∀ points, e.evaluateAt parameters points = .error fault) ∧
    ∀ program, e.compile parameters = .ok program →
      (∀ point, e.evaluateWith (positional parameters point) = .ok (program.run point)) ∧
        ∀ points, ∃ values, e.evaluateAt parameters points = .ok values ∧
          List.Forall₂ (fun point value =>
            e.evaluateWith (positional parameters point) = .ok value) points values := by
  refine ⟨fun lookup hlookup fault => (evaluateWith_eq_error_iff_compile hlookup).symm, ?_, ?_⟩
  · intro fault h
    refine ⟨?_, fun points => ?_⟩
    · obtain ⟨name, -, hname⟩ := Option.map_eq_some_iff.mp (compile_eq_error_iff.mp h)
      exact ⟨name, hname.symm⟩
    · rw [evaluateAt, h]
      rfl
  · intro program h
    refine ⟨evaluateWith_positional h, fun points => ⟨points.map program.run, ?_, ?_⟩⟩
    · rw [evaluateAt, h]
      rfl
    · rw [List.forall₂_map_right_iff, List.forall₂_same]
      exact fun point _ => evaluateWith_positional h point

/-- The difference of `x` and `y` over the parameters `x`, `y` and `x` again. -/
theorem compile_agrees_difference :
    let difference := sub (.variable "x") (.variable "y")
    let program : Program :=
      ⟨[.parameter 0, .parameter 1, .apply .sub], ["x", "y", "x"], 2⟩
    (difference.compile ["x"] = .error (.unbound "y") ∧
      difference.evaluateWith (positional ["x"] [1.0]) = .error (.unbound "y")) ∧
    difference.compile ["x", "y", "x"] = .ok program ∧
      (∀ point, difference.evaluateWith (positional ["x", "y", "x"] point) =
        .ok (program.run point)) ∧
      ∀ points, ∃ values, difference.evaluateAt ["x", "y", "x"] points = .ok values ∧
        List.Forall₂ (fun point value =>
          difference.evaluateWith (positional ["x", "y", "x"] point) = .ok value)
          points values := by
  intro difference program
  have hfault : difference.compile ["x"] = .error (.unbound "y") := by decide
  have hprogram : difference.compile ["x", "y", "x"] = .ok program := by decide
  have hshort := (compile_agrees ["x"] difference).1 (positional ["x"] [1.0])
    fun _ => positional_isSome
  exact ⟨⟨hfault, (hshort _).mp hfault⟩, hprogram,
    (compile_agrees ["x", "y", "x"] difference).2.2 program hprogram⟩

end Expr
end Fluxion
