import CommandText.Command.Grammar

/-!
# Tokens of a command text

A command text is accepted if the terms of the grammar use it up, and its tokens are their values.
Otherwise it is rejected as a whole, at the offset behind the last term.
-/

namespace CommandText

/-- A text that is not a row of terms, and the offset from which on none was found. -/
structure Rejection where
  text : Text
  offset : Int

namespace Rejection

def message (r : Rejection) : Text := "Malformed command text '" ++ r.text ++ "'"

end Rejection

/-- Splits a text into its tokens. -/
def tokenize (lookup : Lookup) (preserveQuotes : Bool) (text : Text) :
    Except Rejection (List Text) :=
  match (Grammar.terms (Grammar.special lookup) preserveQuotes).parse (Cursor.ofText text) with
  | .success tokens rest => if rest.isEnd then .ok tokens else .error ⟨text, rest.start⟩
  | .failure pos _ => .error ⟨text, pos⟩

end CommandText
