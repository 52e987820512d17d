import Fluxion.Expr.Evaluate

/-! Expressions flattened to postfix programs for a stack of doubles. Names are resolved once, so
that running at many points looks none up. -/
namespace Fluxion

inductive Instruction (κ : Type := Float) where
  /-- Pushes a constant. -/
  | constant (value : κ)
  /-- Pushes the value of the parameter with this index. -/
  | parameter (index : Nat)
  /-- Replaces the two topmost values by one. -/
  | apply (op : Operator)
  deriving DecidableEq

/-- A program over named parameters, with the stack height that it needs. -/
structure Program (κ : Type := Float) where
  instructions : List (Instruction κ)
  parameters : List String
  stackSize : Nat
  deriving DecidableEq

/-- A program under construction. `height` is the stack height behind the instructions so far,
and `peak` the greatest one before. -/
structure Emission (κ : Type := Float) where
  instructions : Array (Instruction κ)
  height : Nat
  peak : Nat

namespace Emission
variable {κ : Type}

def empty : Emission κ := ⟨#[], 0, 0⟩

def push (s : Emission κ) (instruction : Instruction κ) : Emission κ :=
  match instruction with
  | .constant _ | .parameter _ =>
    ⟨s.instructions.push instruction, s.height + 1, max s.peak (s.height + 1)⟩
  | .apply _ => ⟨s.instructions.push instruction, s.height - 1, s.peak⟩

/-- Appends the instructions of an expression. A name stands for the first parameter of that
name. -/
def emit (parameters : List String) : Expr κ → Emission κ → Except Diagnostic (Emission κ)
  | .constant value, s => .ok (s.push (.constant value))
  | .variable name, s =>
    match parameters.findIdx? (· == name) with
    | some index => .ok (s.push (.parameter index))
    | none => .error (.unbound name)
  | .binary op left right, s => do
    let s ← emit parameters left s
    let s ← emit parameters right s
    return s.push (.apply op)

end Emission

def Expr.compile {κ : Type} (parameters : List String) (e : Expr κ) :
    Except Diagnostic (Program κ) := do
  let s ← Emission.emit parameters e .empty
  return ⟨s.instructions.toList, parameters, s.peak⟩

namespace Program

def absent : Float := 0.0 / 0.0

/-- One instruction on a stack with its top first. -/
def step (point : List Float) (stack : List Float) : Instruction → List Float
  | .constant value => value :: stack
  | .parameter index => point[index]?.getD absent :: stack
  | .apply op =>
    match stack with
    | right :: left :: stack => op.apply left right :: stack
    | [right] => [op.apply absent right]
    | [] => [op.apply absent absent]

/-- The value at a point: the i-th value is that of the i-th parameter, missing values read as
not a number, and further ones are ignored. -/
def run (p : Program) (point : List Float) : Float :=
  (p.instructions.foldl (step point) []).headD absent

end Program
end Fluxion
