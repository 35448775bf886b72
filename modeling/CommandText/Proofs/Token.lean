import CommandText.Proofs.Element

/-!
# Tokens before substitution

A term of a command text is a run of elements, between quotes or bare. `Token.next?` takes the first
term off a text together with the spaces around it, and `Token.scan` as many terms as there are. No
variable is looked up here: what a token stands for is a matter of `Token.value`, which comes last.
-/

namespace CommandText

/-- The elements of a term. -/
inductive Token where
  /-- A term between quotes. -/
  | quoted (parts : List Element)
  /-- A term without quotes, which has at least one element. -/
  | bare (first : Element) (others : List Element)
  deriving DecidableEq

namespace Token

open Element

def value (lookup : Lookup) (preserveQuotes : Bool) : Token → Text
  | quoted parts =>
    let body := parts.flatMap (Element.value lookup)
    if preserveQuotes then Text.quote :: (body ++ [Text.quote]) else body
  | bare first others => (first :: others).flatMap (Element.value lookup)

/-- The term that a text starts with, behind spaces, and the text behind the term and its spaces. -/
def next? (t : Text) : Option (Token × Text) :=
  match Element.next? t.afterSpaces with
  | none => none
  | some (e, rest) =>
    if e = single Text.quote then
      match (run endsQuoted rest).2 with
      | [] => none
      | _ :: last => some (quoted (run endsQuoted rest).1, Text.afterSpaces last)
    else
      some (bare e (run endsBare rest).1,
        Text.afterSpaces (run endsBare rest).2)

/-- The terms of a text, one after another, and the text from which on there is none. -/
def scan (t : Text) : List Token × Text := Peg.repeated next? t

section Next

variable {t rest : Text} {token : Token}

theorem next?_of_quoted {body last : Text} {u : UInt16}
    (h : t.afterSpaces = Text.quote :: body)
    (hr : (run endsQuoted body).2 = u :: last) :
    next? t = some (quoted (run endsQuoted body).1, Text.afterSpaces last) := by
  rw [next?, h, Element.next?_delimiter isDelimiter_quote]
  simp only [if_pos, hr]

theorem next?_of_bare {e : Element} {body : Text}
    (h : Element.next? t.afterSpaces = some (e, body)) (hq : e ≠ single Text.quote) :
    next? t = some (bare e (run endsBare body).1,
      Text.afterSpaces (run endsBare body).2) := by
  rw [next?, h]
  simp only [if_neg hq]

/-- How the next token was found. -/
theorem next?_cases (h : next? t = some (token, rest)) :
    (∃ body last, t.afterSpaces = Text.quote :: body ∧
        (run endsQuoted body).2 = Text.quote :: last ∧
        token = quoted (run endsQuoted body).1 ∧ rest = Text.afterSpaces last) ∨
      ∃ e body, Element.next? t.afterSpaces = some (e, body) ∧ e ≠ single Text.quote ∧
        token = bare e (run endsBare body).1 ∧
        rest = Text.afterSpaces (run endsBare body).2 := by
  unfold next? at h
  cases ht : Element.next? t.afterSpaces with
  | none => simp [ht] at h
  | some found =>
    obtain ⟨e, body⟩ := found
    simp only [ht] at h
    by_cases hq : e = single Text.quote
    · rw [if_pos hq] at h
      cases hr : (run endsQuoted body).2 with
      | nil => simp [hr] at h
      | cons u last =>
        simp only [hr, Option.some.injEq, Prod.mk.injEq] at h
        obtain ⟨rfl, rfl⟩ := h
        obtain ⟨hw, -⟩ := Element.next?_eq_some_iff.1 ht
        exact .inl ⟨body, last, by rw [hw, hq]; rfl, by rw [hr, eq_quote_of_run hr], rfl, rfl⟩
    · rw [if_neg hq] at h
      simp only [Option.some.injEq, Prod.mk.injEq] at h
      obtain ⟨rfl, rfl⟩ := h
      exact .inr ⟨e, body, rfl, hq, rfl, rfl⟩

theorem next?_eq_none_iff :
    next? t = none ↔ t.afterSpaces = [] ∨
      ∃ body, t.afterSpaces = Text.quote :: body ∧ (run endsQuoted body).2 = [] := by
  unfold next?
  cases ht : Element.next? t.afterSpaces with
  | none => simp [Element.next?_eq_none_iff.1 ht]
  | some found =>
    obtain ⟨e, body⟩ := found
    obtain ⟨hw, -⟩ := Element.next?_eq_some_iff.1 ht
    have hne : t.afterSpaces ≠ [] := by simp [hw, e.written_ne_nil]
    by_cases hq : e = single Text.quote
    · subst hq
      cases hr : (run endsQuoted body).2 <;> simp [hw, written, hr]
    · have hh : ∀ body', t.afterSpaces ≠ Text.quote :: body' := by
        intro body' hb
        apply hq
        exact (head?_eq_some_iff isDelimiter_quote ht).1 (by rw [hb]; rfl)
      simp [hq, hne, hh]

theorem next?_suffix (h : next? t = some (token, rest)) : rest <:+ t := by
  have hs := t.afterSpaces_suffix
  rcases next?_cases h with ⟨body, last, hb, hr, -, rfl⟩ | ⟨e, body, hb, -, -, rfl⟩
  · have hl := Text.afterSpaces_suffix last
    have hc : last <:+ (run endsQuoted body).2 := ⟨[Text.quote], hr.symm⟩
    have ht : body <:+ t.afterSpaces := ⟨[Text.quote], hb.symm⟩
    exact (((hl.trans hc).trans (run_suffix _ body)).trans ht).trans hs
  · have hl := Text.afterSpaces_suffix (run endsBare body).2
    have ht : body <:+ t.afterSpaces := ⟨e.written, (Element.next?_eq_some_iff.1 hb).1.symm⟩
    exact ((hl.trans (run_suffix _ body)).trans ht).trans hs

theorem length_lt_of_next? (h : next? t = some (token, rest)) : rest.length < t.length := by
  have hs := t.afterSpaces_suffix.length_le
  rcases next?_cases h with ⟨body, last, hb, hr, -, rfl⟩ | ⟨e, body, hb, -, -, rfl⟩
  · have hl := (Text.afterSpaces_suffix last).length_le
    have hc := (run_suffix endsQuoted body).length_le
    rw [hr, List.length_cons] at hc
    rw [hb, List.length_cons] at hs
    omega
  · have hl := (Text.afterSpaces_suffix (run endsBare body).2).length_le
    have hc := (run_suffix endsBare body).length_le
    have hb := Element.length_lt_of_next? hb
    omega

theorem head?_ne_space_of_next? (h : next? t = some (token, rest)) :
    rest.head? ≠ some Text.space := by
  rcases next?_cases h with ⟨body, last, -, -, -, rfl⟩ | ⟨e, body, -, -, -, rfl⟩
  · exact Text.head?_afterSpaces_ne last
  · exact Text.head?_afterSpaces_ne _

end Next

section Scan

variable {t rest : Text} {token : Token}

theorem scan_of_none (h : next? t = none) : scan t = ([], t) := Peg.repeated_of_none h

theorem scan_of_some (h : next? t = some (token, rest)) :
    scan t = (token :: (scan rest).1, (scan rest).2) :=
  Peg.repeated_of_some h (length_lt_of_next? h)

/-- What holds of a text without a token, and of a text with a token if it holds behind the token,
holds of every text. -/
@[elab_as_elim]
theorem induction_on {motive : Text → Prop} (t : Text)
    (stop : ∀ t, next? t = none → motive t)
    (next : ∀ t token rest, next? t = some (token, rest) → motive rest → motive t) :
    motive t := by
  induction hn : t.length using Nat.strong_induction_on generalizing t with
  | _ n ih =>
    cases ht : next? t with
    | none => exact stop t ht
    | some found =>
      exact next t found.1 found.2 ht (ih _ (hn ▸ length_lt_of_next? ht) found.2 rfl)

theorem scan_suffix (t : Text) : (scan t).2 <:+ t := by
  induction t using induction_on with
  | stop t h => simp [scan_of_none h]
  | next t token rest h ih =>
    rw [scan_of_some h]
    exact ih.trans (next?_suffix h)

theorem next?_scan (t : Text) : next? (scan t).2 = none := by
  induction t using induction_on with
  | stop t h => rwa [scan_of_none h]
  | next t token rest h ih => rwa [scan_of_some h]

theorem scan_eq_or_head?_ne_space (t : Text) :
    scan t = ([], t) ∨ (scan t).2.head? ≠ some Text.space := by
  induction t using induction_on with
  | stop t h => exact .inl (scan_of_none h)
  | next t token rest h ih =>
    rw [scan_of_some h]
    rcases ih with ih | ih
    · rw [ih]
      exact .inr (head?_ne_space_of_next? h)
    · exact .inr ih

theorem scan_rest_eq_nil_iff :
    (scan t).2 = [] ↔ Text.afterSpaces (scan t).2 = [] ∧ (t = [] ∨ (scan t).1 ≠ []) := by
  constructor
  · intro h
    constructor
    · rw [h]
      rfl
    · cases ht : next? t with
      | none => exact .inl (by rwa [scan_of_none ht] at h)
      | some found => exact .inr (by simp [scan_of_some ht])
  · rintro ⟨hs, ht⟩
    rcases scan_eq_or_head?_ne_space t with h | h
    · rw [h] at ht ⊢
      simpa using ht
    · rwa [Text.afterSpaces_eq_self h] at hs

end Scan

end Token

end CommandText
