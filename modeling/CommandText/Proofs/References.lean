import CommandText.Proofs.Elements
import CommandText.Proofs.Terms
import Mathlib.Data.List.Basic

/-!
# The variables that a text refers to

Tokens are put together from elements of the text, so a variable that no element refers to has no
part in the tokens. Two lookups that agree on the variables of a text split it alike.
-/

namespace CommandText

/-- One of the elements of the text is a reference to the variable. -/
def Text.RefersTo (text name : Text) : Prop := Element.reference name ∈ text.elements

theorem Element.value_congr {f g : Lookup} {e : Element}
    (h : ∀ name, e = reference name → f name = g name) : e.value f = e.value g := by
  cases e with
  | reference name =>
    exact congrArg (fun x : Option Text => x.getD (reference name).written) (h name rfl)
  | pair u v => rfl
  | single u => rfl

namespace Token

open Element

variable {t rest : Text} {token : Token}

def parts : Token → List Element
  | quoted parts => parts
  | bare first others => first :: others

theorem parts_subset_of_next? (h : next? t = some (token, rest)) : token.parts ⊆ t.elements := by
  have hspaces := (elements_afterSpaces_suffix t).subset
  rcases next?_cases h with ⟨body, last, hb, -, rfl, -⟩ | ⟨e, body, hb, -, rfl, -⟩
  · rw [hb, elements_cons_delimiter isDelimiter_quote, elements_eq_run_append endsQuoted] at hspaces
    intro e he
    exact hspaces (List.mem_cons_of_mem _ (List.mem_append_left _ he))
  · rw [elements_of_next? hb, elements_eq_run_append endsBare] at hspaces
    intro e' he
    rcases List.mem_cons.1 he with rfl | he
    · exact hspaces List.mem_cons_self
    · exact hspaces (List.mem_cons_of_mem _ (List.mem_append_left _ he))

theorem parts_subset_of_mem_scan (h : token ∈ (scan t).1) : token.parts ⊆ t.elements := by
  induction t using induction_on with
  | stop t hnone =>
    rw [scan_of_none hnone] at h
    cases h
  | next t first rest hnext ih =>
    rw [scan_of_some hnext] at h
    rcases List.mem_cons.1 h with rfl | h
    · exact parts_subset_of_next? hnext
    · exact fun e he => (elements_suffix_of_next? hnext).subset (ih h he)

theorem value_congr {f g : Lookup} {preserveQuotes : Bool}
    (h : ∀ name, reference name ∈ token.parts → f name = g name) :
    token.value f preserveQuotes = token.value g preserveQuotes := by
  have hbody : token.parts.flatMap (Element.value f) = token.parts.flatMap (Element.value g) := by
    apply List.flatMap_congr
    intro e he
    apply Element.value_congr
    rintro name rfl
    exact h name he
  cases token with
  | quoted parts =>
    exact congrArg (fun body => if preserveQuotes then Text.quote :: (body ++ [Text.quote]) else body)
      hbody
  | bare first others => exact hbody

end Token

/-- Only the variables that a text refers to matter for its tokens. -/
theorem tokenize_congr {f g : Lookup} {text : Text}
    (h : ∀ name, text.RefersTo name → f name = g name) (preserveQuotes : Bool) :
    tokenize f preserveQuotes text = tokenize g preserveQuotes text := by
  have hvalues : (Token.scan text).1.map (Token.value f preserveQuotes) =
      (Token.scan text).1.map (Token.value g preserveQuotes) := by
    apply List.map_congr_left
    intro token htoken
    apply Token.value_congr
    intro name hname
    exact h name (Token.parts_subset_of_mem_scan htoken hname)
  rw [tokenize_eq_scan, tokenize_eq_scan, hvalues]

end CommandText
