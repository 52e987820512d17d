import Fluxion.CommandLine.Reader
import Fluxion.Expr.Derivative
import Fluxion.Expr.Evaluate

/-! What the command prints: the formula, its value, its derivative, and the value of that. Lines for
tracing, which are not written unless the environment asks for them, are left out. -/
namespace Fluxion.CommandLine

inductive Line where
  | output (text : String)
  | error (text : String)
  deriving DecidableEq, Repr

def padRight (width : Nat) (text : String) : String :=
  text ++ String.ofList (List.replicate (width - text.length) ' ')

def bindingsLabel (bindings : Bindings Float) : String :=
  let texts := bindings.latest.map fun (name, value) => name ++ "=" ++ doubleText value
  "[" ++ ", ".intercalate (texts.mergeSort fun a b => !decide (b < a)) ++ "]"

def valueLine (heading complaint : String) (bindings : Bindings Float) (e : Expr) : Line :=
  match e.evaluate bindings with
  | .ok value => .output (" " ++ heading ++ " " ++ doubleText value)
  | .error fault => .error (complaint ++ ": " ++ fault.message)

/-- The report on an expression. A value that is missing stops nothing else; without a derivative
there is no value of it. -/
def report (bindings : Bindings Float) (name : String) (e : Expr) : List Line :=
  let label := bindingsLabel bindings
  let derivativeLines :=
    match e.derivative name with
    | .ok derivative =>
      [.output (" diff " ++ padRight 11 name ++ " " ++ derivative.render),
        valueLine ("diff " ++ name ++ " " ++ padRight 9 label) "cannot evaluate derivative"
          bindings derivative]
    | .error fault => [.error ("cannot differentiate: " ++ fault.message)]
  .output e.render :: valueLine (padRight 16 label) "cannot evaluate" bindings e :: derivativeLines

def Outcome.ofLines (lines : List Line) : Outcome where
  exitCode := 0
  output := lines.foldl (fun text line =>
    match line with
    | .output line => text ++ line ++ "\n"
    | .error _ => text) ""
  errors := lines.filterMap fun
    | .output _ => none
    | .error line => some line

def answer (a : Arguments) : Outcome :=
  match Expr.parseWithin a.limit a.formula with
  | .error fault =>
    ⟨1, "", ["error parsing expression at position " ++ toString (fault.position?.getD 0) ++
      ": " ++ fault.cause.message]⟩
  | .ok e => .ofLines (report a.bindings a.name e)

/-- Runs the command with a reader of arguments, which either says what is asked for or ends the run
itself. -/
def runWith (read : List String → Except Outcome Arguments) (arguments : List String) : Outcome :=
  match read arguments with
  | .error outcome => outcome
  | .ok a => answer a

def run (arguments : List String) : Outcome := runWith readArguments arguments

end Fluxion.CommandLine
