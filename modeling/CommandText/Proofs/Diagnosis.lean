import CommandText.Command.Diagnostic
import CommandText.Proofs.Elements
import CommandText.Proofs.Stopping

/-!
# What is said about a rejected text

A diagnostic guesses what is wrong from the text and the offset alone, without the grammar. The
tokenizer rejects in two ways: either the text consists of spaces, or there is a quote behind the
offset and its spaces that is not closed. In both cases the guess is right, and the lines that are
made of it name its place, its label and its advice.
-/

namespace CommandText

namespace Text

theorem head?_quote_ne_space (t : Text) : (quote :: t).head? ≠ some space := by
  intro h
  exact absurd (Option.some.inj h) (by decide)

theorem getElem?_quote_behind_spaces (start : Text) (n : Nat) (body : Text) :
    (start ++ (List.replicate n space ++ quote :: body))[start.length + n]? = some quote := by
  rw [List.getElem?_append_right (by omega), List.getElem?_append_right (by simp)]
  simp

theorem getElem?_space_before_quote (start : Text) (n : Nat) (body : Text) {i : Nat}
    (hle : start.length ≤ i) (hlt : i < start.length + n) :
    (start ++ (List.replicate n space ++ quote :: body))[i]? = some space := by
  rw [List.getElem?_append_right hle, List.getElem?_append_left (by simp; omega)]
  exact List.getElem?_replicate_of_lt (by omega)

end Text

namespace Diagnostic

theorem skipSpaces_append (start : Text) (n : Nat) {tail : Text}
    (h : tail.head? ≠ some Text.space) :
    skipSpaces (start ++ (List.replicate n Text.space ++ tail)) start.length =
      (start.length + n : Nat) := by
  have htake : tail.takeWhile (· == Text.space) = [] := by
    cases tail with
    | nil => rfl
    | cons u tail =>
      have hu : ¬u = Text.space := by simpa using h
      simp [hu]
  have hspaces : ∀ u ∈ List.replicate n Text.space, (u == Text.space) = true := by
    intro u hu
    rw [List.eq_of_mem_replicate hu]
    rfl
  unfold skipSpaces
  rw [if_neg (by omega), Int.toNat_natCast, List.drop_left,
    List.takeWhile_append_of_pos hspaces, htake, List.append_nil, List.length_replicate]
  rfl

theorem find_of_spaces (n : Nat) : find (List.replicate n Text.space) 0 = ⟨0, .noTerm⟩ := by
  have hskip : skipSpaces (List.replicate n Text.space) 0 = n := by
    simpa using @skipSpaces_append [] n [] (by simp)
  unfold find
  rw [hskip]
  simp

theorem find_of_quote (start : Text) (n : Nat) (body : Text) :
    find (start ++ (List.replicate n Text.space ++ Text.quote :: body)) start.length =
      ⟨(start.length + n : Nat), .unterminatedQuote⟩ := by
  have hunit : Text.unitAt? (start ++ (List.replicate n Text.space ++ Text.quote :: body))
      (start.length + n : Nat) = some Text.quote := by
    unfold Text.unitAt?
    rw [if_neg (by omega), Int.toNat_natCast, Text.getElem?_quote_behind_spaces]
  unfold find
  rw [skipSpaces_append start n (Text.head?_quote_ne_space body)]
  dsimp only
  rw [hunit, if_neg, if_pos rfl]
  simp only [List.length_append, List.length_replicate, List.length_cons]
  omega

/-- A line with a caret under a column and a label beside it. -/
def caretLine (colors : Bool) (place : Place) (label : Text) : Text :=
  " " ++ blanks (Text.ofNat place.line).length ++ " " ++ paint colors [.blue] "|" ++ " " ++
    paint colors [.red] (blanks (place.column - 1) ++ "^ " ++ label)

/-- Lines name a place, put a caret and a label under it, and end with a piece of advice. -/
structure PointsAt (colors : Bool) (place : Place) (label help : Text) (lines : List Text) :
    Prop where
  named : lines[1]? = some ("  " ++ paint colors [.blue] "-->" ++ " input:" ++
    Text.ofNat place.line ++ ":" ++ Text.ofNat place.column)
  labelled : lines[4]? = some (caretLine colors place label)
  advised : lines[6]? = some ("   " ++ paint colors [.bold, .green] "= help:" ++ " " ++ help)

theorem pointsAt_lines (colors : Bool) (r : Rejection) {finding : Finding}
    (h : find r.text r.offset = finding) :
    PointsAt colors (place r.text finding.pos) finding.fault.label finding.fault.help
      (lines colors r) := by
  subst h
  exact ⟨rfl, rfl, rfl⟩

end Diagnostic

namespace Token

open Element

/-- What is left of a text behind its tokens: nothing, the whole text if it consists of spaces, or a
quote that is not closed and the spaces before it. -/
theorem scan_rest_cases {t : Text} (h : (scan t).2 ≠ []) :
    (∃ n, t = List.replicate (n + 1) Text.space ∧ (scan t).2 = t) ∨
      ∃ n body, (scan t).2 = List.replicate n Text.space ++ Text.quote :: body ∧
        (run endsQuoted body).2 = [] := by
  obtain ⟨n, hn⟩ := Text.exists_eq_replicate_append (scan t).2
  rcases next?_eq_none_iff.1 (next?_scan t) with hspaces | ⟨body, hbody, hrun⟩
  · left
    have hwhole : scan t = ([], t) := by
      apply (scan_eq_or_head?_ne_space t).resolve_right
      intro hhead
      exact h (Text.afterSpaces_eq_self hhead ▸ hspaces)
    rw [hspaces, List.append_nil] at hn
    rw [hwhole] at hn h ⊢
    cases n with
    | zero => exact absurd hn h
    | succ n => exact ⟨n, hn, rfl⟩
  · rw [hbody] at hn
    exact .inr ⟨n, body, hn, hrun⟩

end Token

open Element in
/-- A rejected text consists of spaces, or there is a quote behind the offset and its spaces that is
not closed. -/
theorem rejection_cases {lookup : Lookup} {preserveQuotes : Bool} {text : Text}
    {rejection : Rejection} (h : tokenize lookup preserveQuotes text = .error rejection) :
    (∃ n, text = List.replicate (n + 1) Text.space ∧ rejection = ⟨text, 0⟩) ∨
      ∃ start n body, text = start ++ (List.replicate n Text.space ++ Text.quote :: body) ∧
        rejection = ⟨text, start.length⟩ ∧ (run endsQuoted body).2 = [] ∧
        Text.elements (Text.quote :: body) <:+ text.elements := by
  rw [tokenize_eq_scan] at h
  split_ifs at h with hr
  obtain rfl := Except.error.inj h
  rcases Token.scan_rest_cases hr with ⟨n, hn, hwhole⟩ | ⟨n, body, hrest, hrun⟩
  · left
    refine ⟨n, hn, ?_⟩
    rw [hwhole, Nat.sub_self]
    rfl
  · right
    obtain ⟨start, hstart⟩ := Token.scan_suffix text
    have hlength := congrArg List.length hstart
    rw [List.length_append] at hlength
    refine ⟨start, n, body, by rw [← hrest, hstart], ?_, hrun, ?_⟩
    · congr 1
      omega
    · -- The spaces are elements of their own, so an element begins at the quote behind them.
      have hscan := Token.elements_scan_suffix text
      have hspaces := elements_afterSpaces_suffix (Token.scan text).2
      have hafter : Text.afterSpaces (Token.scan text).2 = Text.quote :: body := by
        rw [hrest, Text.afterSpaces_replicate_append]
        exact Text.afterSpaces_eq_self (Text.head?_quote_ne_space body)
      rw [hafter] at hspaces
      exact hspaces.trans hscan

end CommandText
