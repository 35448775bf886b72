import CommandText.Command.Tokens

/-!
# Diagnostics

A rejection is shown in seven lines: a headline, the place, the line of the text with a caret under
the unit in question, and a piece of advice. Colours are put around parts of the lines and change
nothing else. The offset of a rejection may be any integer; what lies outside the text is not shown.
-/

namespace CommandText

namespace Diagnostic

inductive Style where
  | bold
  | red
  | green
  | blue

def sequence (parameter : Text) : Text := 0x1B :: 0x5B :: (parameter ++ [0x6D])

def Style.code : Style → Text
  | bold => sequence "1"
  | red => sequence "31"
  | green => sequence "32"
  | blue => sequence "34"

def reset : Text := sequence "0"

/-- A text in some styles, or as it is if there are to be no colours. -/
def paint (colors : Bool) (styles : List Style) (t : Text) : Text :=
  if colors then (styles.map Style.code).flatten ++ t ++ reset else t

/-- A setting counts if it is present and not empty. -/
def isSwitchedOn (env : Environment) (name : Text) : Bool :=
  match env.value? name with
  | some value => !value.isEmpty
  | none => false

/-- Colours are on unless the environment asks for none. -/
def colorsEnabled (env : Environment) : Bool :=
  !isSwitchedOn env "NO_COLOR" && !isSwitchedOn env "CMDTOK_NO_COLOR" &&
    env.value? "FORCE_COLOR" != some "0"

inductive Fault where
  | noTerm
  | unterminatedQuote
  | cannotStart
  deriving DecidableEq

def Fault.label : Fault → Text
  | noTerm => "no term found"
  | unterminatedQuote => "unterminated quoted term"
  | cannotStart => "cannot start a term here"

def Fault.help : Fault → Text
  | noTerm => "the text contains only spaces"
  | unterminatedQuote => "close the term with `\"` or escape the quote as `\\\"`"
  | cannotStart => "quote or escape this character"

/-- What is wrong, and the position that the caret points at. -/
structure Finding where
  pos : Int
  fault : Fault

/-- The first position from an offset on that does not hold a space. -/
def skipSpaces (text : Text) (offset : Int) : Int :=
  if offset < 0 then offset
  else offset + ((text.drop offset.toNat).takeWhile (· == Text.space)).length

/-- Spaces before a term belong to it, so the caret skips them. -/
def find (text : Text) (offset : Int) : Finding :=
  let pos := skipSpaces text offset
  if pos = text.length then ⟨offset, .noTerm⟩
  else if text.unitAt? pos = some Text.quote then ⟨pos, .unterminatedQuote⟩
  else ⟨pos, .cannotStart⟩

/-- A line and a column, both counted from one. -/
structure Place where
  line : Nat
  column : Nat

def place (text : Text) (pos : Int) : Place :=
  let lines := (text.before pos).splitOn Text.newline
  ⟨lines.length, (lines.getLastD []).length + 1⟩

def blanks (n : Nat) : Text := List.replicate n Text.space

def lines (colors : Bool) (r : Rejection) : List Text :=
  let finding := find r.text r.offset
  let place := place r.text finding.pos
  let source := (r.text.splitOn Text.newline).getD (place.line - 1) []
  let number := Text.ofNat place.line
  let gutter := blanks number.length
  let bar := paint colors [.blue] "|"
  let caret := blanks (place.column - 1) ++ "^ " ++ finding.fault.label
  [
    paint colors [.bold, .red] "error" ++ ": " ++ paint colors [.bold] "malformed command text",
    "  " ++ paint colors [.blue] "-->" ++ " input:" ++ number ++ ":" ++ Text.ofNat place.column,
    " " ++ gutter ++ " " ++ bar,
    " " ++ paint colors [.blue] number ++ " " ++ bar ++ " " ++ source,
    " " ++ gutter ++ " " ++ bar ++ " " ++ paint colors [.red] caret,
    " " ++ gutter ++ " " ++ bar,
    "   " ++ paint colors [.bold, .green] "= help:" ++ " " ++ finding.fault.help
  ]

def render (colors : Bool) (r : Rejection) : Text := Text.join [Text.newline] (lines colors r)

end Diagnostic

end CommandText
