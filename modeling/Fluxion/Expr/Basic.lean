/-! Expression trees: doubles and names at the leaves, one of five operators at each node. -/
namespace Fluxion

inductive Operator where
  | add
  | sub
  | mul
  | div
  | pow
  deriving DecidableEq, Repr

namespace Operator

def precedence : Operator → Nat
  | .add | .sub => 10
  | .mul | .div => 20
  | .pow => 30

/-- A chain of powers groups to the right, any other chain to the left. -/
def rightAssociative : Operator → Bool
  | .pow => true
  | _ => false

def symbol : Operator → String
  | .add => "+"
  | .sub => "-"
  | .mul => "*"
  | .div => "/"
  | .pow => "^"

end Operator

/-- An expression. Its constants are doubles, unless another type is given for them. -/
inductive Expr (κ : Type := Float) where
  | constant (value : κ)
  | variable (name : String)
  | binary (op : Operator) (left right : Expr κ)
  deriving DecidableEq

namespace Expr

def add (left right : Expr) : Expr := .binary .add left right

def sub (left right : Expr) : Expr := .binary .sub left right

def mul (left right : Expr) : Expr := .binary .mul left right

def div (left right : Expr) : Expr := .binary .div left right

def pow (base exponent : Expr) : Expr := .binary .pow base exponent

def constantValue? : Expr → Option Float
  | .constant value => some value
  | _ => none

def variableName? : Expr → Option String
  | .variable name => some name
  | _ => none

def isPower : Expr → Bool
  | .binary .pow _ _ => true
  | _ => false

/-- Same shape, operators and names, and numerically equal constants. So zeros of either sign
agree, and an expression with a constant that is no number does not agree even with itself. -/
def agrees : Expr → Expr → Bool
  | .constant a, .constant b => a == b
  | .variable m, .variable n => m == n
  | .binary p a b, .binary q c d => p == q && a.agrees c && b.agrees d
  | _, _ => false

def mentions (name : String) : Expr → Bool
  | .constant _ => false
  | .variable other => other == name
  | .binary _ left right => left.mentions name || right.mentions name

/-- The names at the leaves, in reading order and as often as they occur. -/
def names {κ : Type} : Expr κ → List String
  | .constant _ => []
  | .variable name => [name]
  | .binary _ left right => left.names ++ right.names

def insertName (name : String) : List String → List String
  | [] => [name]
  | first :: rest =>
    if name < first then name :: first :: rest
    else if name = first then first :: rest
    else first :: insertName name rest

/-- The names that occur, each once and in increasing order. Code points and UTF-8 bytes order
them alike. -/
def variableNames (e : Expr) : List String :=
  e.names.foldl (fun sorted name => insertName name sorted) []

/-- The height of the tree; a leaf has height one. -/
def depth : Expr → Nat
  | .constant _ | .variable _ => 1
  | .binary _ left right => 1 + max left.depth right.depth

def nodeCount {κ : Type} : Expr κ → Nat
  | .constant _ | .variable _ => 1
  | .binary _ left right => 1 + left.nodeCount + right.nodeCount

end Expr
end Fluxion
