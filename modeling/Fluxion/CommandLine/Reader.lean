import Fluxion.CommandLine.Arguments
import Fluxion.Parser
import Fluxion.Text.Terminal

/-! A reader of arguments, for the forms in which they are usually given: a formula, and options whose
values stand behind a `=` or as the next argument. Other readers will do as well, and nothing that
the command promises depends on how this one words a refusal. -/
namespace Fluxion.CommandLine

inductive LimitFault where
  | empty
  | digit
  | tooLarge
  deriving DecidableEq, Repr

def LimitFault.message : LimitFault → String
  | .empty => "cannot parse integer from empty string"
  | .digit => "invalid digit found in string"
  | .tooLarge => "number too large to fit in target type"

def readLimitDigits (digits : List Char) : Except LimitFault Nat :=
  digits.foldlM (fun value digit =>
    if !digit.isDigit then .error .digit
    else
      let value := 10 * value + (digit.toNat - '0'.toNat)
      if value < 2 ^ (64 : Nat) then .ok value else .error .tooLarge) 0

def readLimit (raw : String) : Except LimitFault Nat :=
  match raw.toList with
  | [] => .error .empty
  | ['+'] => .error .digit
  | '+' :: digits => readLimitDigits digits
  | digits => readLimitDigits digits

inductive Setting where
  | binding
  | name
  | limit
  deriving DecidableEq, Repr

namespace Setting

def flag : Setting → String
  | .binding => "--var"
  | .name => "--wrt"
  | .limit => "--max-depth"

def usage : Setting → String
  | .binding => "--var <NAME=VALUE>"
  | .name => "--wrt <WRT>"
  | .limit => "--max-depth <MAX_DEPTH>"

def ofFlag? (word : String) : Option Setting :=
  [binding, name, limit].find? (·.flag = word)

end Setting

/-- Why reading ends without anything that the command could answer. -/
inductive Ending where
  | help
  | badBinding (raw : String) (fault : BindingFault)
  | badLimit (raw : String) (fault : LimitFault)
  | unexpected (argument : String)
  | unneeded (value : String)
  | valueMissing (setting : Setting)
  | repeated (setting : Setting)
  | formulaMissing
  deriving DecidableEq, Repr

/-- The first line of a text. A line feed ends it, with or without a carriage return before. -/
def firstLine (text : String) : String :=
  let line := text.toList.takeWhile (· ≠ '\n')
  String.ofList (if line.getLast? = some '\r' then line.dropLast else line)

/-- The outcome of a refusal, of whose wording the first line is kept. It is given in parts, cut where
the style of the text changes: a change of style ends an escape sequence that an argument leaves
open, so each part is shown on its own. -/
def refusal (parts : List String) : Outcome :=
  ⟨2, "", [firstLine (String.join (("error: " :: parts).map Terminal.plainText))]⟩

/-- The parts of the wording of a refused value. A hint stands below the reason; it comes into the
first line when the reason leaves an escape sequence open that takes line feeds in. -/
def invalidValue (raw : String) (setting : Setting) (reason : String) : List String :=
  ["invalid value '", raw, "' for '", setting.usage,
    "': " ++ reason ++ "\n\nFor more information, try '", "--help", "'.\n"]

def helpText : String :=
  String.join (["Evaluate and differentiate an arithmetic expression", "",
    "Usage: symb-deriv [OPTIONS] <EXPRESSION>", "", "Arguments:",
    "  <EXPRESSION>  Expression to parse, e.g. \"2 * x ** 3 + 1\"", "", "Options:",
    "      --var <NAME=VALUE>       Variable binding, repeatable",
    "      --wrt <WRT>              Variable to differentiate with respect to [default: x]",
    "      --max-depth <MAX_DEPTH>  Maximum nesting depth of the parsed tree [default: " ++
      toString defaultDepthLimit ++ "]",
    "  -h, --help                   Print help"].map (· ++ "\n"))

def Ending.outcome : Ending → Outcome
  | .help => ⟨0, helpText, []⟩
  | .badBinding raw reason => refusal (invalidValue raw .binding (reason.message raw))
  | .badLimit raw reason => refusal (invalidValue raw .limit reason.message)
  | .unexpected argument => refusal ["unexpected argument '", argument, "' found"]
  | .unneeded value =>
    refusal ["unexpected value '", value, "' for '", "--help", "' found; no more were expected"]
  | .valueMissing setting =>
    refusal ["a value is required for '", setting.usage, "' but none was supplied"]
  | .repeated setting =>
    refusal ["the argument '", setting.usage, "' cannot be used multiple times"]
  | .formulaMissing => refusal ["the following required arguments were not provided:"]

inductive Item where
  | formula (text : String)
  | option (setting : Setting) (raw : String)
  deriving DecidableEq, Repr

def isFlag : List Char → Bool
  | '-' :: _ :: _ => true
  | _ => false

/-- The ending of an option that is followed by a flag where its value should be. A flag that is
unknown is blamed itself. -/
def flagForValue (setting : Setting) : List Char → Ending
  | ['-', '-'] => .valueMissing setting
  | '-' :: '-' :: word =>
    let flag := String.ofList ('-' :: '-' :: word.takeWhile (· ≠ '='))
    if (Setting.ofFlag? flag).isSome || flag = "--help" then .valueMissing setting
    else .unexpected flag
  | '-' :: c :: _ => if c = 'h' then .valueMissing setting else .unexpected (String.ofList ['-', c])
  | _ => .valueMissing setting

def noSetting (flag : String) (tail : List Char) : Ending :=
  if flag = "--help" then
    match tail with
    | [] => .help
    | _ :: value => .unneeded (String.ofList value)
  else .unexpected flag

/-- The items among arguments, in order, up to the first argument that belongs to none. A value follows
its option after `=` or as the next argument, and behind `--` there are no options. -/
def items : List String → List (Except Ending Item)
  | [] => []
  | argument :: rest =>
    match argument.toList with
    | ['-', '-'] => rest.map fun text => .ok (.formula text)
    | '-' :: '-' :: word =>
      let flag := String.ofList ('-' :: '-' :: word.takeWhile (· ≠ '='))
      match Setting.ofFlag? flag, word.dropWhile (· ≠ '=') with
      | none, tail => [.error (noSetting flag tail)]
      | some setting, _ :: value => .ok (.option setting (String.ofList value)) :: items rest
      | some setting, [] =>
        match rest with
        | [] => [.error (.valueMissing setting)]
        | value :: rest =>
          if isFlag value.toList then [.error (flagForValue setting value.toList)]
          else .ok (.option setting value) :: items rest
    | '-' :: c :: _ => [.error (if c = 'h' then .help else .unexpected (String.ofList ['-', c]))]
    | _ => .ok (.formula argument) :: items rest

structure Draft where
  formula : Option String
  bindings : Bindings Float
  name : Option String
  limit : Option Nat

namespace Draft

def empty : Draft := ⟨none, [], none, none⟩

/-- Takes an item. Only bindings may be given more than once. -/
def take (d : Draft) : Item → Except Ending Draft
  | .formula text =>
    if d.formula.isSome then .error (.unexpected text) else .ok { d with formula := some text }
  | .option .binding raw =>
    match readBinding raw with
    | .ok binding => .ok { d with bindings := d.bindings ++ [binding] }
    | .error fault => .error (.badBinding raw fault)
  | .option .name raw =>
    if d.name.isSome then .error (.repeated .name) else .ok { d with name := some raw }
  | .option .limit raw =>
    if d.limit.isSome then .error (.repeated .limit)
    else
      match readLimit raw with
      | .ok limit => .ok { d with limit := some limit }
      | .error fault => .error (.badLimit raw fault)

def takeAll (d : Draft) (found : List (Except Ending Item)) : Except Ending Draft :=
  found.foldlM (fun d item => item.bind d.take) d

def finish (d : Draft) : Except Ending Arguments :=
  match d.formula with
  | none => .error .formulaMissing
  | some formula =>
    .ok ⟨formula, d.bindings, d.name.getD "x", d.limit.getD defaultDepthLimit⟩

end Draft

def readArguments (arguments : List String) : Except Outcome Arguments :=
  ((Draft.empty.takeAll (items arguments)).bind Draft.finish).mapError Ending.outcome

end Fluxion.CommandLine
