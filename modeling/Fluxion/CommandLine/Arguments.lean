import Fluxion.Bindings
import Fluxion.Number.Literal
import Fluxion.Text.Blank

/-! What the command is asked for, and what comes of a run. Bindings of names are written
`NAME=VALUE`; how a list of arguments is divided into a formula and options is up to a reader. -/
namespace Fluxion.CommandLine

inductive BindingFault where
  | unseparated
  | value (name : String) (fault : DoubleFault)
  deriving DecidableEq, Repr

/-- Reads `NAME=VALUE`, split at the first `=`; blanks around either side do not count. -/
def readBinding (raw : String) : Except BindingFault (String × Float) :=
  let name := raw.toList.takeWhile (· ≠ '=')
  match raw.toList.dropWhile (· ≠ '=') with
  | [] => .error .unseparated
  | _ :: value =>
    match readDouble (trimBlanks value) with
    | .ok x => .ok (String.ofList (trimBlanks name), x)
    | .error fault => .error (.value (String.ofList name) fault)

def BindingFault.message (raw : String) : BindingFault → String
  | .unseparated => "expected NAME=VALUE, got '" ++ raw ++ "'"
  | .value name fault => "invalid value for '" ++ name ++ "': " ++ fault.message

structure Arguments where
  formula : String
  bindings : Bindings Float
  name : String
  limit : Nat
  deriving DecidableEq

/-- The result of a run: exit code, output, and the lines for the error stream. Lines of the log
stand without their time and level, as they are written where the environment sets no filter. -/
structure Outcome where
  exitCode : Nat
  output : String
  errors : List String
  deriving DecidableEq, Repr

end Fluxion.CommandLine
