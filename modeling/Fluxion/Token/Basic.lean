import Fluxion.Expr.Basic

/-! Tokens of formulas. -/
namespace Fluxion

inductive TokenKind where
  | number
  | name
  | operator (op : Operator)
  | openParen
  | closeParen
  | comma
  /-- Stands behind the last character. -/
  | finish
  deriving DecidableEq, Repr

/-- A piece of a formula; `position` is the byte offset at which `text` starts. -/
structure Token where
  kind : TokenKind
  text : String
  position : Nat
  deriving DecidableEq, Repr

end Fluxion
