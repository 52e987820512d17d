/-! Text without what only directs a terminal: control characters and escape sequences. -/
namespace Fluxion.Terminal

inductive Mode where
  /-- Outside of sequences. -/
  | plain
  /-- Behind the escape character. -/
  | escape
  /-- In a sequence of intermediate characters and a final one. -/
  | intermediate
  /-- In a control sequence, which a letter ends. -/
  | control
  /-- At the start of a device control. -/
  | device
  /-- In the parameters of a device control. -/
  | deviceParameter
  /-- In the intermediate characters of a device control. -/
  | deviceIntermediate
  /-- In the string of a device control, or in a string for an application. -/
  | string
  /-- In a command for the system, which a bell ends. -/
  | command
  deriving DecidableEq, Repr

def Mode.keepsBlanks : Mode → Bool
  | .escape | .intermediate | .control => true
  | _ => false

def isControlBlank (c : Char) : Bool :=
  c = '\t' || c = '\n' || c = '\x0c' || c = '\r'

def isShown (c : Char) : Bool :=
  ' ' ≤ c && c ≠ '\x7f' || isControlBlank c

/-- Whether the terminator of strings, the byte `0x9c`, is among the bytes of a character. -/
def holdsTerminator (c : Char) : Bool :=
  (String.utf8EncodeChar c).contains 0x9C

def afterEscape (c : Char) : Mode :=
  if c = '[' then .control
  else if c = ']' then .command
  else if c = 'P' then .device
  else if c = 'X' || c = '^' || c = '_' then .string
  else if ' ' ≤ c && c ≤ '/' then .intermediate
  else if '0' ≤ c && c ≤ '~' then .plain
  else .escape

/-- The mode behind a character that is not shown. Cancel and substitute end every sequence, and
an escape character starts another one. -/
def Mode.after (m : Mode) (c : Char) : Mode :=
  if c = '\x18' || c = '\x1a' then .plain
  else if c = '\x1b' then .escape
  else
    match m with
    | .plain => .plain
    | .escape => afterEscape c
    | .intermediate => if '0' ≤ c && c ≤ '~' then .plain else m
    | .control => if '@' ≤ c && c ≤ '~' then .plain else m
    | .device =>
      if ' ' ≤ c && c ≤ '/' then .deviceIntermediate
      else if '0' ≤ c && c ≤ '?' then .deviceParameter
      else if '@' ≤ c && c ≤ '~' then .string
      else m
    | .deviceParameter =>
      if ' ' ≤ c && c ≤ '/' then .deviceIntermediate
      else if '<' ≤ c && c ≤ '~' then .string
      else m
    | .deviceIntermediate => if '0' ≤ c && c ≤ '~' then .string else m
    | .string => if holdsTerminator c then .plain else m
    | .command => if c = '\x07' then .plain else m

/-- The characters that are shown. A blank may interrupt a sequence; then text is shown up to the
next control character, where the sequence goes on unless a character beyond ASCII came before. -/
def shown (m : Mode) (interrupted : Bool) : List Char → List Char
  | [] => []
  | c :: rest =>
    if (m = .plain || interrupted) && isShown c then
      c :: shown (if c ≤ '\x7f' then m else .plain) interrupted rest
    else if m.keepsBlanks && isControlBlank c then c :: shown m true rest
    else shown (m.after c) false rest

def plainText (text : String) : String :=
  String.ofList (shown .plain false text.toList)

end Fluxion.Terminal
