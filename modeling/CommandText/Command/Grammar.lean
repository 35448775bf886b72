import CommandText.Peg.Basic
import CommandText.Lookup.Basic

/-!
# The grammar of command texts

    reference     = '%' (!'%' .)* '%'
    escape        = '%' '%' | '^' '^' | '\' '\' | '\' '"'
    special       = reference | escape
    unquotedPiece = (!special !' ' !'"' .)+
    quotedPiece   = (!special !'"' .)+
    unquotedTerm  = (unquotedPiece | special)+
    quotedTerm    = '"' (quotedPiece | special)* '"'
    term          = ' '* (quotedTerm | unquotedTerm) ' '*
    terms         = term*

A quote never belongs to an unquoted piece: a quote that is not closed fits no rule, and a quote
that follows a word starts a term of its own. From `unquotedPiece` on, the rules are stated over any
`special`, which is where the variables come in.
-/

namespace CommandText

namespace Grammar

def percent : Peg UInt16 := .unit Text.percent

def space : Peg UInt16 := .unit Text.space

def quote : Peg UInt16 := .unit Text.quote

def exceptUnit (p : Peg UInt16) (excluded : Peg UInt16) : Peg UInt16 :=
  .except p excluded fun u => Text.quoted [u]

def name : Peg Text := .between percent (.many (exceptUnit .any percent)) percent

/-- The value of a variable, or the reference as it is written if there is none. -/
def resolve (lookup : Lookup) (name : Text) : Text :=
  (lookup name).getD (Text.percent :: name ++ [Text.percent])

def reference (lookup : Lookup) : Peg Text := name.map (resolve lookup)

/-- Two units that stand for the second of them. -/
def escapePair (first second : UInt16) : Peg Text :=
  (Peg.seq (.unit first) (.unit second)).map fun _ => [second]

/-- The pair of percent signs is never reached behind `reference`, which takes it for a reference to
the empty name. -/
def escape : Peg Text :=
  .alt (.alt (escapePair Text.percent Text.percent) (escapePair Text.caret Text.caret))
    (.alt (escapePair Text.backslash Text.backslash) (escapePair Text.backslash Text.quote))

def special (lookup : Lookup) : Peg Text := .alt (reference lookup) escape

section

variable (special : Peg Text) (preserveQuotes : Bool)

/-- One unit that starts nothing special. -/
def plainUnit : Peg UInt16 := .except .any special Text.quoted

def unquotedPiece : Peg Text := .many1 (exceptUnit (exceptUnit (plainUnit special) space) quote)

def quotedPiece : Peg Text := .many1 (exceptUnit (plainUnit special) quote)

def unquotedTerm : Peg Text := .joined (.many1 (.alt (unquotedPiece special) special))

def quotedBody : Peg Text :=
  .between quote (.joined (.many (.alt (quotedPiece special) special))) quote

/-- Puts quotes around the body of a quoted term if they are to be kept. -/
def requote (body : Text) : Text :=
  if preserveQuotes then Text.quote :: body ++ [Text.quote] else body

def quotedTerm : Peg Text := (quotedBody special).map (requote preserveQuotes)

def term : Peg Text :=
  .between (.many space) (.alt (quotedTerm special preserveQuotes) (unquotedTerm special))
    (.many space)

def terms : Peg (List Text) := .many (term special preserveQuotes)

end

end Grammar

end CommandText
