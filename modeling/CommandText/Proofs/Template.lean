import CommandText.Proofs.Terms

/-!
# Substitution behind the structure

What a text is split into is settled before any variable is looked up. The outline of a text is
either the offset at which it is rejected or its tokens as templates, in which the references are
still open. Every lookup only fills the same outline, so a value is never read again and cannot
change where a token begins or ends, whatever it contains.
-/

namespace CommandText

/-- A text that stands for itself, or a variable by its name. -/
inductive Part where
  | literal (t : Text)
  | reference (name : Text)

def Part.fill (lookup : Lookup) : Part → Text
  | literal t => t
  | reference name =>
    match lookup name with
    | some value => value
    | none => Text.percent :: (name ++ [Text.percent])

/-- A token before substitution. A token without quotes has at least one part. -/
structure Template where
  quoted : Bool
  parts : List Part
  parts_ne_nil : quoted = false → parts ≠ []

namespace Template

/-- The token with its parts filled, between quotes if it was quoted and quotes are preserved. -/
def fill (lookup : Lookup) (preserveQuotes : Bool) (token : Template) : Text :=
  let body := token.parts.flatMap (Part.fill lookup)
  if token.quoted && preserveQuotes then Text.quote :: (body ++ [Text.quote]) else body

end Template

def Element.part : Element → Part
  | reference name => .reference name
  | pair _ v => .literal [v]
  | single u => .literal [u]

theorem Element.fill_part (lookup : Lookup) (e : Element) :
    e.part.fill lookup = e.value lookup := by
  cases e with
  | reference name =>
    rw [part, Part.fill, value]
    cases lookup name <;> rfl
  | pair u v => rfl
  | single u => rfl

def Token.template : Token → Template
  | quoted parts => ⟨true, parts.map Element.part, by simp⟩
  | bare first others => ⟨false, (first :: others).map Element.part, by simp⟩

theorem Token.fill_template (lookup : Lookup) (preserveQuotes : Bool) (token : Token) :
    token.template.fill lookup preserveQuotes = token.value lookup preserveQuotes := by
  have hparts : ∀ parts : List Element, (parts.map Element.part).flatMap (Part.fill lookup) =
      parts.flatMap (Element.value lookup) := by
    intro parts
    rw [List.flatMap_map]
    exact congrArg (parts.flatMap ·) (funext (Element.fill_part lookup))
  cases token with
  | quoted parts => simp only [template, Template.fill, value, hparts, Bool.true_and]
  | bare first others => simp only [template, Template.fill, value, hparts, Bool.false_and]; rfl

/-- What a text comes to before any variable is looked up: an offset or templates. -/
abbrev Outline := Except Nat (List Template)

namespace Outline

def ofText (text : Text) : Outline :=
  if (Token.scan text).2 = [] then .ok ((Token.scan text).1.map Token.template)
  else .error (text.length - (Token.scan text).2.length)

/-- The outcome for a text that has the outline. -/
def fill (text : Text) (lookup : Lookup) (preserveQuotes : Bool) :
    Outline → Except Rejection (List Text)
  | .ok tokens => .ok (tokens.map (Template.fill lookup preserveQuotes))
  | .error offset => .error ⟨text, offset⟩

end Outline

theorem tokenize_eq_fill (lookup : Lookup) (preserveQuotes : Bool) (text : Text) :
    tokenize lookup preserveQuotes text =
      (Outline.ofText text).fill text lookup preserveQuotes := by
  rw [tokenize_eq_scan, Outline.ofText]
  split_ifs
  · rw [Outline.fill, List.map_map]
    exact congrArg (fun f => Except.ok ((Token.scan text).1.map f))
      (funext fun token => (token.fill_template lookup preserveQuotes).symm)
  · rfl

/-- Both accepted with as many tokens, or both rejected at the same offset. -/
def SameShape : Except Rejection (List Text) → Except Rejection (List Text) → Prop
  | .ok tokens, .ok tokens' => tokens.length = tokens'.length
  | .error rejection, .error rejection' => rejection = rejection'
  | _, _ => False

/-- Filling one outline twice gives the same shape. -/
theorem Outline.sameShape_fill (outline : Outline) (text : Text) (lookup lookup' : Lookup)
    (preserveQuotes preserveQuotes' : Bool) :
    SameShape (outline.fill text lookup preserveQuotes)
      (outline.fill text lookup' preserveQuotes') := by
  cases outline with
  | error offset => rfl
  | ok tokens => simp only [fill, SameShape, List.length_map]

/-- Each text has one outline that all lookups and both ways to treat quotes only fill. -/
theorem exists_outline_tokenize_eq_fill (text : Text) :
    (∃ outline : Outline, ∀ lookup preserveQuotes,
      tokenize lookup preserveQuotes text = outline.fill text lookup preserveQuotes) ∧
    ∀ lookup lookup' preserveQuotes preserveQuotes',
      SameShape (tokenize lookup preserveQuotes text) (tokenize lookup' preserveQuotes' text) := by
  constructor
  · refine ⟨Outline.ofText text, ?_⟩
    intro lookup preserveQuotes
    exact tokenize_eq_fill lookup preserveQuotes text
  · intro lookup lookup' preserveQuotes preserveQuotes'
    rw [tokenize_eq_fill, tokenize_eq_fill]
    apply Outline.sameShape_fill

end CommandText
