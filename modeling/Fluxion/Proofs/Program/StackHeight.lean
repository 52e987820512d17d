import Mathlib.Data.List.Induction
import Mathlib.Order.Bounds.Basic
import Fluxion.Proofs.Program.Simulation

/-! How high a compiled program stacks its values. The instructions alone decide about the height, so
the height that is counted during compilation is the height during each run. No operator ever lacks
an operand, and the stack gets exactly as high as the program says. -/
namespace Fluxion

namespace Expr

/-- How many values have to be kept at once. While the right operand is computed, the value of the
left one is kept below. -/
def stackNeed : Expr → Nat
  | .constant _ | .variable _ => 1
  | .binary _ left right => max left.stackNeed (1 + right.stackNeed)

theorem stackNeed_le_depth (e : Expr) : e.stackNeed ≤ e.depth := by
  induction e with
  | constant value => exact Nat.le_refl 1
  | «variable» name => exact Nat.le_refl 1
  | binary op l r ihl ihr =>
    rw [stackNeed, depth]
    omega

end Expr

/-- The height behind an instruction, from the height before it, if the values that the instruction
takes are there. -/
def Instruction.height? (height : Nat) : Instruction → Option Nat
  | .constant _ | .parameter _ => some (height + 1)
  | .apply _ => if 2 ≤ height then some (height - 1) else none

/-- The postfix form never lacks an operand, and adds one value to what is on the stack. -/
theorem Expr.foldlM_height?_code (parameters : List String) (e : Expr) (height : Nat) :
    (e.code parameters).foldlM Instruction.height? height = some (height + 1) := by
  induction e generalizing height with
  | constant value => rfl
  | «variable» name => rfl
  | binary op l r ihl ihr =>
    simp [code, ihl, ihr, Instruction.height?]

section
variable {code before : List Instruction} {height final : Nat}

/-- Where a whole program lacks no operand, a part that comes first does not. -/
theorem foldlM_height?_of_part (h : code.foldlM Instruction.height? height = some final)
    (hbefore : before <+: code) :
    ∃ reached, before.foldlM Instruction.height? height = some reached := by
  obtain ⟨after, rfl⟩ := hbefore
  rw [List.foldlM_append] at h
  obtain ⟨reached, hreached, -⟩ := Option.bind_eq_some_iff.mp h
  exact ⟨reached, hreached⟩

/-- An operator of such a program has both operands. -/
theorem two_le_of_apply {op : Operator} {reached : Nat}
    (h : code.foldlM Instruction.height? height = some final)
    (hbefore : before ++ [.apply op] <+: code)
    (hreached : before.foldlM Instruction.height? height = some reached) : 2 ≤ reached := by
  obtain ⟨next, hnext⟩ := foldlM_height?_of_part h hbefore
  rw [List.foldlM_append, hreached] at hnext
  by_contra hlow
  simp [Instruction.height?, hlow] at hnext

/-- What follows the heights of single instructions follows those of a program. -/
theorem size_foldl {σ : Type} {size : σ → Nat} {next : σ → Instruction → σ}
    (hnext : ∀ s instruction reached, instruction.height? (size s) = some reached →
      size (next s instruction) = reached)
    (s : σ) (h : code.foldlM Instruction.height? (size s) = some final) :
    size (code.foldl next s) = final := by
  induction code generalizing s with
  | nil => exact Option.some.inj h
  | cons instruction code ih =>
    rw [List.foldlM_cons] at h
    obtain ⟨reached, hreached, hrest⟩ := Option.bind_eq_some_iff.mp h
    rw [← hnext s instruction reached hreached] at hrest
    exact ih _ hrest

end

namespace Program
variable {point stack : List Float} {reached : Nat}

theorem length_step {instruction : Instruction}
    (h : instruction.height? stack.length = some reached) :
    (step point stack instruction).length = reached := by
  cases instruction with
  | constant value => exact Option.some.inj h
  | parameter index => exact Option.some.inj h
  | apply op =>
    match stack with
    | [] | [_] => simp [Instruction.height?] at h
    | right :: left :: stack => simpa [Instruction.height?, step] using h

theorem length_foldl_step (point stack : List Float) {code : List Instruction}
    (h : code.foldlM Instruction.height? stack.length = some reached) :
    (code.foldl (step point) stack).length = reached :=
  size_foldl (fun _ _ _ => length_step) stack h

end Program

namespace Emission
variable {s : Emission} {instruction : Instruction}

theorem height_push {reached : Nat} (h : instruction.height? s.height = some reached) :
    (s.push instruction).height = reached := by
  cases instruction with
  | constant value => exact Option.some.inj h
  | parameter index => exact Option.some.inj h
  | apply op =>
    obtain ⟨-, rfl⟩ : 2 ≤ s.height ∧ s.height - 1 = reached := by
      simpa [Instruction.height?] using h
    rfl

/-- The peak takes the height behind each instruction into account. -/
theorem peak_push (h : s.height ≤ s.peak) :
    (s.push instruction).peak = max (s.push instruction).height s.peak := by
  cases instruction with
  | constant value => exact Nat.max_comm _ _
  | parameter index => exact Nat.max_comm _ _
  | apply op =>
    have hlow : s.height - 1 ≤ s.peak := Nat.le_trans (Nat.sub_le _ _) h
    exact (Nat.max_eq_right hlow).symm

/-- The peak is the greatest of the heights behind the parts of a program that come first. -/
theorem isGreatest_peak (code : List Instruction) :
    IsGreatest {height | ∃ before, before <+: code ∧ (before.foldl push empty).height = height}
      (code.foldl push empty).peak := by
  -- The induction takes the last instruction off, since a part that comes first is then the whole or
  -- a part of what is left.
  induction code using List.reverseRecOn with
  | nil =>
    refine ⟨⟨[], List.prefix_refl [], rfl⟩, ?_⟩
    rintro height ⟨before, hbefore, rfl⟩
    rw [List.prefix_nil.mp hbefore]
    exact Nat.le_refl 0
  | append_singleton code instruction ih =>
    have hheight : (code.foldl push empty).height ≤ (code.foldl push empty).peak :=
      ih.2 ⟨code, List.prefix_refl code, rfl⟩
    have hparts : {height | ∃ before, before <+: code ++ [instruction] ∧
        (before.foldl push empty).height = height} =
        insert ((code.foldl push empty).push instruction).height
          {height | ∃ before, before <+: code ∧ (before.foldl push empty).height = height} := by
      ext height
      simp [List.prefix_concat_iff, or_and_right, exists_or, eq_comm]
    rw [hparts, List.foldl_append, List.foldl_cons, List.foldl_nil, peak_push hheight]
    exact ih.insert _

theorem height_foldl_push (s : Emission) {code : List Instruction} {reached : Nat}
    (h : code.foldlM Instruction.height? s.height = some reached) :
    (code.foldl push s).height = reached :=
  size_foldl (fun _ _ _ => height_push) s h

theorem height_foldl_push_code (parameters : List String) (e : Expr) (s : Emission) :
    ((e.code parameters).foldl push s).height = s.height + 1 :=
  height_foldl_push s (e.foldlM_height?_code parameters s.height)

theorem peak_foldl_push_code (parameters : List String) (e : Expr) (s : Emission) :
    ((e.code parameters).foldl push s).peak = max s.peak (s.height + e.stackNeed) := by
  induction e generalizing s with
  | constant value => rfl
  | «variable» name => rfl
  | binary op l r ihl ihr =>
    rw [Expr.code, List.foldl_append, List.foldl_append, List.foldl_cons, List.foldl_nil, push, ihr,
      ihl, height_foldl_push_code, Expr.stackNeed]
    omega

def push? (s : Emission) (instruction : Instruction) : Option Emission :=
  match instruction with
  | .apply _ => if s.height = 0 then none else some (s.push instruction)
  | _ => some (s.push instruction)

def emit? (parameters : List String) : Expr → Emission → ExceptT Diagnostic Option Emission
  | .constant value, s => ExceptT.lift (s.push? (.constant value))
  | .variable name, s =>
    match parameters.findIdx? (· == name) with
    | some index => ExceptT.lift (s.push? (.parameter index))
    | none => throw (.unbound name)
  | .binary op left right, s => do
    let s ← emit? parameters left s
    let s ← emit? parameters right s
    ExceptT.lift (s.push? (.apply op))

/-- The height is never counted below zero, whether or not the expression compiles. -/
theorem emit?_eq (parameters : List String) (e : Expr) (s : Emission) :
    (emit? parameters e s).run = some (emit parameters e s) := by
  induction e generalizing s with
  | constant value => rfl
  | «variable» name =>
    rw [emit?, emit]
    cases parameters.findIdx? (· == name) <;> rfl
  | binary op l r ihl ihr =>
    rw [emit?, emit, ExceptT.run_bind, ihl]
    cases hl : emit parameters l s with
    | error fault => rfl
    | ok sl =>
      simp only [Option.bind_eq_bind, Option.bind_some, ExceptT.run_bind, ihr, ok_bind]
      cases hr : emit parameters r sl with
      | error fault => rfl
      | ok sr =>
        have hheight : sr.height = s.height + 2 := by
          rw [emit_eq_ok hr, height_foldl_push_code, emit_eq_ok hl, height_foldl_push_code]
        simp [push?, hheight]

end Emission

namespace Expr
variable {parameters : List String} {e : Expr} {p : Program}

theorem compile_stackSize (h : e.compile parameters = .ok p) :
    p.stackSize = (p.instructions.foldl Emission.push .empty).peak := by
  obtain ⟨s, hs, hp⟩ := bind_eq_ok.mp h
  rw [compile_instructions h, ← Except.ok.inj hp, Emission.emit_eq_ok hs]

theorem exists_height_of_part (h : e.compile parameters = .ok p) {before : List Instruction}
    (hbefore : before <+: p.instructions) :
    ∃ reached, before.foldlM Instruction.height? 0 = some reached := by
  rw [compile_instructions h] at hbefore
  exact foldlM_height?_of_part (e.foldlM_height?_code parameters 0) hbefore

/-- At each place of a compiled program the height during a run is the height that was counted. -/
theorem length_foldl_step_of_part (h : e.compile parameters = .ok p) {before : List Instruction}
    (hbefore : before <+: p.instructions) (point : List Float) :
    (before.foldl (Program.step point) []).length = (before.foldl Emission.push .empty).height := by
  obtain ⟨reached, hreached⟩ := exists_height_of_part h hbefore
  rw [Program.length_foldl_step point [] hreached, Emission.height_foldl_push .empty hreached]

theorem two_le_length_of_apply (h : e.compile parameters = .ok p) {before : List Instruction}
    {op : Operator} (hbefore : before ++ [.apply op] <+: p.instructions) (point : List Float) :
    2 ≤ (before.foldl (Program.step point) []).length := by
  obtain ⟨reached, hreached⟩ :=
    exists_height_of_part h ((List.prefix_append before _).trans hbefore)
  rw [compile_instructions h] at hbefore
  rw [Program.length_foldl_step point [] hreached]
  exact two_le_of_apply (e.foldlM_height?_code parameters 0) hbefore hreached

/-- Whether or not an expression compiles, its height is never counted below zero. A program of the
expression finds both operands of each operator at every point, leaves its value and nothing else,
and reaches a stack as high as it says and none higher. That height is what the expression needs,
and at most its depth. -/
theorem compile_stack (parameters : List String) (e : Expr) :
    (Emission.emit? parameters e .empty).run = some (Emission.emit parameters e .empty) ∧
    ∀ p, e.compile parameters = .ok p →
      (∀ point,
        (∀ before op, before ++ [.apply op] <+: p.instructions →
          2 ≤ (before.foldl (Program.step point) []).length) ∧
        p.instructions.foldl (Program.step point) [] = [p.run point] ∧
        IsGreatest {height | ∃ before, before <+: p.instructions ∧
          (before.foldl (Program.step point) []).length = height} p.stackSize) ∧
      p.stackSize = e.stackNeed ∧ p.stackSize ≤ e.depth := by
  refine ⟨Emission.emit?_eq parameters e .empty, fun p h => ⟨fun point => ⟨?_, ?_, ?_⟩, ?_⟩⟩
  · exact fun _ _ hbefore => two_le_length_of_apply h hbefore point
  · rw [Program.run, compile_instructions h, foldl_step_code (evaluateWith_positional h point)]
    rfl
  · have hpeak := Emission.isGreatest_peak p.instructions
    rw [← compile_stackSize h] at hpeak
    convert hpeak using 1
    ext height
    exact exists_congr fun before => and_congr_right fun hbefore => by
      rw [length_foldl_step_of_part h hbefore point]
  · have hneed : p.stackSize = e.stackNeed := by
      rw [compile_stackSize h, compile_instructions h, Emission.peak_foldl_push_code]
      exact (Nat.zero_max _).trans (Nat.zero_add _)
    exact ⟨hneed, hneed ▸ e.stackNeed_le_depth⟩

/-- A right operand that is a product of its own needs a third value, a left one does not. -/
theorem compile_stack_difference :
    let deep := sub (.variable "x") (mul (.constant 2.0) (.variable "y"))
    let program : Program :=
      ⟨[.parameter 0, .constant 2.0, .parameter 1, .apply .mul, .apply .sub], ["x", "y"], 3⟩
    deep.compile ["x", "y"] = .ok program ∧ program.stackSize = deep.stackNeed ∧
      program.stackSize ≤ deep.depth ∧
      ∀ point, program.instructions.foldl (Program.step point) [] = [program.run point] ∧
        IsGreatest {height | ∃ before, before <+: program.instructions ∧
          (before.foldl (Program.step point) []).length = height} 3 := by
  intro deep program
  have hprogram : deep.compile ["x", "y"] = .ok program := by decide
  obtain ⟨hrun, hneed, hdepth⟩ := (compile_stack ["x", "y"] deep).2 program hprogram
  exact ⟨hprogram, hneed, hdepth, fun point => ⟨(hrun point).2.1, (hrun point).2.2⟩⟩

end Expr
end Fluxion
