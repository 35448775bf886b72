import CommandText.Proofs.Terms

/-!
# The tokenizer as one pass over the text

The grammar tries its rules one after another and looks far ahead for percent signs. The scanner
below goes over the text once, element by element, and puts the values in as it goes. The two agree
on every text: `tokenize_eq_scanner`.
-/

namespace CommandText

namespace Scanner

open Element

/-- What a pass has found: the tokens, the text behind the last of them and the spaces that follow
it, and whether the pass came to the end of the text. -/
structure Pass where
  tokens : List Text
  rest : Text
  atEnd : Bool

def Pass.cons (token : Text) (found : Pass) : Pass := { found with tokens := token :: found.tokens }

theorem length_run_lt {t body : Text} {u : UInt16} (h : t.afterSpaces = u :: body)
    (hu : ¬u = Text.quote) :
    (run endsBare (u :: body)).2.length < t.length := by
  have hs := t.afterSpaces_suffix.length_le
  cases hn : next? (u :: body) with
  | none => simp [next?_eq_none_iff] at hn
  | some found =>
    obtain ⟨e, rest⟩ := found
    have hq : e ≠ single Text.quote := by
      intro he
      exact hu (by simpa using (head?_eq_some_iff isDelimiter_quote hn).2 he)
    have hlt := length_lt_of_next? hn
    have hle := (run_suffix endsBare rest).length_le
    rw [run_of_not_stops hn (not_endsBare_of_afterSpaces (h ▸ hn) hq)]
    rw [h] at hs
    dsimp only
    omega

section

variable (lookup : Lookup) (preserveQuotes : Bool)

/-- Goes over a text from its start. Spaces are skipped; a quote takes the elements up to the next
quote on its own, and fails if there is none; any other unit starts the longest run of elements that
are neither a space nor a quote on its own. -/
def pass (t : Text) : Pass :=
  match _h : t.afterSpaces with
  | [] => ⟨[], t, true⟩
  | u :: body =>
    if u = Text.quote then
      match _hr : (run endsQuoted body).2 with
      | [] => ⟨[], t, false⟩
      | _ :: last =>
        let token := (run endsQuoted body).1.flatMap (value lookup)
        (pass (Text.afterSpaces last)).cons
          (if preserveQuotes then Text.quote :: (token ++ [Text.quote]) else token)
    else
      let found := run endsBare (u :: body)
      (pass (Text.afterSpaces found.2)).cons (found.1.flatMap (value lookup))
termination_by t.length
decreasing_by
  · have h₁ := t.afterSpaces_suffix.length_le
    have h₂ := (run_suffix endsQuoted body).length_le
    have h₃ := (Text.afterSpaces_suffix last).length_le
    simp_all only [List.length_cons]
    omega
  · have h₁ := (Text.afterSpaces_suffix found.2).length_le
    exact Nat.lt_of_le_of_lt h₁ (length_run_lt ‹_› ‹_›)

/-- Accepts a text if the end was reached and the text is empty or has a token, and otherwise
rejects it behind the last token and its spaces. -/
def scan (text : Text) : Except Rejection (List Text) :=
  let found := pass lookup preserveQuotes text
  if found.atEnd ∧ (text = [] ∨ found.tokens ≠ []) then .ok found.tokens
  else .error ⟨text, (text.length - found.rest.length : Nat)⟩

variable {t body : Text} {u : UInt16}

theorem pass_of_end (h : t.afterSpaces = []) :
    pass lookup preserveQuotes t = ⟨[], t, true⟩ := by
  unfold pass
  split
  · rfl
  · next h' => simp [h] at h'

theorem pass_of_unclosed (h : t.afterSpaces = Text.quote :: body)
    (hr : (run endsQuoted body).2 = []) :
    pass lookup preserveQuotes t = ⟨[], t, false⟩ := by
  unfold pass
  split
  · next h' => simp [h] at h'
  · next u body' h' =>
    obtain ⟨rfl, rfl⟩ : Text.quote = u ∧ body = body' := by simpa [h] using h'
    rw [if_pos rfl]
    split
    · rfl
    · next hr' => simp [hr] at hr'

theorem pass_of_quoted {last : Text} (h : t.afterSpaces = Text.quote :: body)
    (hr : (run endsQuoted body).2 = u :: last) :
    pass lookup preserveQuotes t = (pass lookup preserveQuotes (Text.afterSpaces last)).cons
      (Token.value lookup preserveQuotes (.quoted (run endsQuoted body).1)) := by
  rw [pass.eq_def]
  split
  · next h' => simp [h] at h'
  · next u' body' h' =>
    obtain ⟨rfl, rfl⟩ : Text.quote = u' ∧ body = body' := by simpa [h] using h'
    rw [if_pos rfl]
    split
    · next hr' => simp [hr] at hr'
    · next last' hr' =>
      obtain ⟨-, rfl⟩ : u = _ ∧ last = last' := by simpa [hr] using hr'
      rfl

theorem pass_of_bare {e : Element} (h : next? t.afterSpaces = some (e, body))
    (hq : e ≠ single Text.quote) :
    pass lookup preserveQuotes t =
      (pass lookup preserveQuotes
        (Text.afterSpaces (run endsBare body).2)).cons
      (Token.value lookup preserveQuotes
        (.bare e (run endsBare body).1)) := by
  have hrun := run_of_not_stops h (not_endsBare_of_afterSpaces h hq)
  rw [pass.eq_def]
  split
  · next h' => simp [h', next?] at h
  · next u body' h' =>
    have hu : ¬u = Text.quote := by
      intro hu
      apply hq
      exact (head?_eq_some_iff isDelimiter_quote h).1 (by rw [h', hu]; rfl)
    rw [if_neg hu, ← h', hrun]
    rfl

/-- A pass finds the tokens of the text with their values put in. -/
theorem pass_eq_scan (t : Text) :
    pass lookup preserveQuotes t =
      ⟨(Token.scan t).1.map (Token.value lookup preserveQuotes), (Token.scan t).2,
        (Text.afterSpaces (Token.scan t).2).isEmpty⟩ := by
  induction t using Token.induction_on with
  | stop t h =>
    rw [Token.scan_of_none h]
    rcases Token.next?_eq_none_iff.1 h with h | ⟨body, h, hr⟩
    · rw [pass_of_end lookup preserveQuotes h, h]
      rfl
    · rw [pass_of_unclosed lookup preserveQuotes h hr, h]
      rfl
  | next t token rest h ih =>
    rw [Token.scan_of_some h]
    rcases Token.next?_cases h with ⟨body, last, hb, hr, rfl, rfl⟩ | ⟨e, body, hb, hq, rfl, rfl⟩
    · rw [pass_of_quoted lookup preserveQuotes hb hr, ih]
      rfl
    · rw [pass_of_bare lookup preserveQuotes hb hq, ih]
      rfl

/-- The grammar and the scanner accept the same texts, with the same tokens, and reject the others
at the same offset. -/
theorem tokenize_eq_scanner (text : Text) :
    tokenize lookup preserveQuotes text = scan lookup preserveQuotes text := by
  rw [tokenize_eq_scan, scan, pass_eq_scan]
  have hiff := Token.scan_rest_eq_nil_iff (t := text)
  simp only [List.isEmpty_iff, ne_eq, List.map_eq_nil_iff, ← hiff]

end

end Scanner

end CommandText
