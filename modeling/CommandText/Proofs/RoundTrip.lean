import CommandText.Proofs.Terms
import Mathlib.Data.List.Chain

/-!
# Arguments written and read back

Every list of arguments without a percent sign can be written as a command text. Backslash, quote
and caret are escaped; an argument then stands between quotes or, if it has units and no space among
them, bare. Spaces may stand anywhere around the arguments, and only two bare neighbours need one
between them. The tokenizer reads the arguments back, whatever the variables are.
-/

namespace CommandText

namespace Writing

open Element

/-- A unit as it is written in an argument. -/
def escapeUnit (u : UInt16) : Text :=
  if u = Text.backslash then [Text.backslash, Text.backslash]
  else if u = Text.quote then [Text.backslash, Text.quote]
  else if u = Text.caret then [Text.caret, Text.caret]
  else [u]

def escape (s : Text) : Text := s.flatMap escapeUnit

/-- The element that a unit is written as. -/
def element (u : UInt16) : Element :=
  if u = Text.backslash then pair Text.backslash Text.backslash
  else if u = Text.quote then pair Text.backslash Text.quote
  else if u = Text.caret then pair Text.caret Text.caret
  else single u

theorem written_element (u : UInt16) : (element u).written = escapeUnit u := by
  unfold element escapeUnit
  split_ifs <;> rfl

theorem value_element (lookup : Lookup) (u : UInt16) : (element u).value lookup = [u] := by
  unfold element
  split_ifs <;> simp_all [value]

/-- No text behind an escaped unit can become a part of it. -/
theorem fits_element {u : UInt16} (hu : u ≠ Text.percent) (rest : Text) :
    (element u).Fits rest := by
  unfold element
  split_ifs with h₁ h₂ h₃
  · exact isPair_iff.2 (.inr ⟨rfl, .inl rfl⟩)
  · exact isPair_iff.2 (.inr ⟨rfl, .inr rfl⟩)
  · exact isPair_iff.2 (.inl ⟨rfl, rfl⟩)
  · constructor
    · intro h
      exact absurd h hu
    · intro v _ hp
      rcases isPair_iff.1 hp with ⟨h, -⟩ | ⟨h, -⟩
      · exact h₃ h
      · exact h₁ h

theorem next?_escapeUnit {u : UInt16} (hu : u ≠ Text.percent) (rest : Text) :
    next? (escapeUnit u ++ rest) = some (element u, rest) :=
  next?_eq_some_iff.2 ⟨by rw [written_element], fits_element hu rest⟩

theorem element_ne_quote (u : UInt16) : element u ≠ single Text.quote := by
  unfold element
  split_ifs with h₁ h₂ h₃
  · simp
  · simp
  · simp
  · simpa using h₂

theorem element_ne_space {u : UInt16} (hu : u ≠ Text.space) : element u ≠ single Text.space := by
  unfold element
  split_ifs <;> simp [hu]

theorem flatMap_value_element (lookup : Lookup) (s : Text) :
    (s.map element).flatMap (value lookup) = s := by
  induction s with
  | nil => rfl
  | cons u s ih => rw [List.map_cons, List.flatMap_cons, value_element, ih]; rfl

theorem run_escape {units : List UInt16} {s : Text} (hp : Text.percent ∉ s)
    (hs : ∀ u ∈ s, ¬(element u).endsAt units) (rest : Text) :
    run (endsAt units) (escape s ++ rest) =
      (s.map element ++ (run (endsAt units) rest).1, (run (endsAt units) rest).2) := by
  induction s with
  | nil => rfl
  | cons u s ih =>
    rw [List.mem_cons, not_or] at hp
    have hn := next?_escapeUnit (Ne.symm hp.1) (escape s ++ rest)
    have hr := ih hp.2 fun v hv => hs v (List.mem_cons_of_mem u hv)
    rw [escape, List.flatMap_cons, List.append_assoc, ← escape,
      run_of_not_stops hn (hs u List.mem_cons_self), hr]
    rfl

/-- An argument, how it is written, and the number of spaces behind it. -/
structure Argument where
  value : Text
  quoted : Bool
  gap : Nat
  percent_notMem : Text.percent ∉ value
  plain_of_bare : quoted = false → value ≠ [] ∧ Text.space ∉ value

namespace Argument

/-- The argument as it stands in a text, without the spaces around it. -/
def form (a : Argument) : Text :=
  if a.quoted then Text.quote :: (escape a.value ++ [Text.quote]) else escape a.value

def token (preserveQuotes : Bool) (a : Argument) : Text :=
  if a.quoted && preserveQuotes then Text.quote :: (a.value ++ [Text.quote]) else a.value

/-- Two arguments may follow each other: one of them is quoted, or there is a space between. -/
def Apart (a b : Argument) : Prop := a.quoted = false → b.quoted = false → 0 < a.gap

end Argument

def row (arguments : List Argument) : Text :=
  arguments.flatMap fun a => a.form ++ List.replicate a.gap Text.space

/-- Arguments in order, with spaces before them too. -/
def line (lead : Nat) (arguments : List Argument) : Text :=
  List.replicate lead Text.space ++ row arguments

/-- A text behind which a bare argument ends: an empty one, or one that starts with a delimiter. -/
def StopsBare (rest : Text) : Prop := ∀ u ∈ rest.head?, IsDelimiter u

theorem run_of_stopsBare {rest : Text} (h : StopsBare rest) :
    run endsBare rest = ([], rest) := by
  cases rest with
  | nil => exact run_nil _
  | cons u rest =>
    have hu : IsDelimiter u := h u rfl
    refine run_of_stops (next?_delimiter hu rest) ?_
    rcases hu with rfl | rfl <;> simp [endsAt]

theorem head?_escapeUnit_append_ne {u : UInt16} (hp : u ≠ Text.percent) (hu : u ≠ Text.space)
    (rest : Text) : (escapeUnit u ++ rest).head? ≠ some Text.space := by
  intro h
  apply element_ne_space hu
  exact (head?_eq_some_iff isDelimiter_space (next?_escapeUnit hp rest)).1 h

theorem quote_ne_space : Text.quote ≠ Text.space := by decide

theorem next?_quoted {s : Text} (hp : Text.percent ∉ s) (rest : Text) :
    Token.next? (Text.quote :: (escape s ++ Text.quote :: rest)) =
      some (.quoted (s.map element), rest.afterSpaces) := by
  have hends : ∀ u ∈ s, ¬endsQuoted (element u) := by
    intro u _
    simp [endsAt, element_ne_quote u]
  have hrun := run_escape hp hends (Text.quote :: rest)
  have hstop : run endsQuoted (Text.quote :: rest) = ([], Text.quote :: rest) :=
    run_of_stops (next?_delimiter isDelimiter_quote rest) (by simp [endsAt])
  rw [hstop, List.append_nil] at hrun
  have ha := Text.afterSpaces_eq_self (t := Text.quote :: (escape s ++ Text.quote :: rest))
    (by simpa using quote_ne_space)
  rw [Token.next?_of_quoted ha (congrArg Prod.snd hrun), hrun]

theorem next?_bare {u : UInt16} {s rest : Text} (hp : Text.percent ∉ u :: s)
    (hs : Text.space ∉ u :: s) (hr : StopsBare rest) :
    Token.next? (escape (u :: s) ++ rest) =
      some (.bare (element u) (s.map element), rest.afterSpaces) := by
  rw [List.mem_cons, not_or] at hp hs
  have hends : ∀ v ∈ s, ¬endsBare (element v) := by
    intro v hv
    have hv : v ≠ Text.space := by
      intro h
      exact hs.2 (h ▸ hv)
    simp [endsAt, element_ne_quote v, element_ne_space hv]
  have hrun := run_escape hp.2 hends rest
  rw [run_of_stopsBare hr, List.append_nil] at hrun
  have hn := next?_escapeUnit (Ne.symm hp.1) (escape s ++ rest)
  rw [escape, List.flatMap_cons, List.append_assoc, ← escape]
  have ha := Text.afterSpaces_eq_self
    (head?_escapeUnit_append_ne (Ne.symm hp.1) (Ne.symm hs.1) (escape s ++ rest))
  rw [Token.next?_of_bare (by rw [ha, hn]) (element_ne_quote u), hrun]

/-- An argument is the next token, unless it is bare and what follows belongs to it. -/
theorem exists_next?_form (a : Argument) {rest : Text} (h : a.quoted = false → StopsBare rest) :
    ∃ token, Token.next? (a.form ++ rest) = some (token, rest.afterSpaces) ∧
      ∀ lookup preserveQuotes, token.value lookup preserveQuotes = a.token preserveQuotes := by
  cases hq : a.quoted with
  | true =>
    refine ⟨.quoted (a.value.map element), ?_, ?_⟩
    · simpa [Argument.form, hq] using next?_quoted a.percent_notMem rest
    · intro lookup preserveQuotes
      simp only [Token.value, flatMap_value_element, Argument.token, hq, Bool.true_and]
  | false =>
    obtain ⟨hne, hs⟩ := a.plain_of_bare hq
    obtain ⟨u, s, hv⟩ := List.exists_cons_of_ne_nil hne
    refine ⟨.bare (element u) (s.map element), ?_, ?_⟩
    · rw [Argument.form, hq, hv]
      exact next?_bare (hv ▸ a.percent_notMem) (hv ▸ hs) (h hq)
    · intro lookup preserveQuotes
      have hval := flatMap_value_element lookup (u :: s)
      rw [List.map_cons] at hval
      rw [Token.value, hval, Argument.token, hq, hv]
      rfl

theorem head?_form_append_ne (a : Argument) (rest : Text) :
    (a.form ++ rest).head? ≠ some Text.space := by
  cases hq : a.quoted with
  | true => simpa [Argument.form, hq] using quote_ne_space
  | false =>
    obtain ⟨hne, hs⟩ := a.plain_of_bare hq
    have hp := a.percent_notMem
    obtain ⟨u, s, hv⟩ := List.exists_cons_of_ne_nil hne
    rw [hv, List.mem_cons, not_or] at hs hp
    have hform : a.form = escapeUnit u ++ escape s := by
      simp [Argument.form, hq, hv, escape]
    rw [hform, List.append_assoc]
    exact head?_escapeUnit_append_ne (Ne.symm hp.1) (Ne.symm hs.1) _

theorem row_cons (a : Argument) (arguments : List Argument) :
    row (a :: arguments) = a.form ++ (List.replicate a.gap Text.space ++ row arguments) := by
  rw [row, List.flatMap_cons, List.append_assoc]
  rfl

theorem afterSpaces_row (arguments : List Argument) :
    Text.afterSpaces (row arguments) = row arguments := by
  apply Text.afterSpaces_eq_self
  cases arguments with
  | nil => simp [row]
  | cons a arguments =>
    rw [row_cons]
    exact head?_form_append_ne a _

theorem stopsBare_row {a : Argument} {arguments : List Argument}
    (h : List.IsChain Argument.Apart (a :: arguments)) (hq : a.quoted = false) :
    StopsBare (List.replicate a.gap Text.space ++ row arguments) := by
  intro u hu
  cases hg : a.gap with
  | succ n =>
    rw [hg, List.replicate_succ] at hu
    exact .inl (by simpa using hu.symm)
  | zero =>
    rw [hg, List.replicate_zero, List.nil_append] at hu
    cases arguments with
    | nil => simp [row] at hu
    | cons b arguments =>
      have hb : b.quoted = true := by
        cases hb : b.quoted with
        | true => rfl
        | false => exact absurd ((List.isChain_cons_cons.1 h).1 hq hb) (by omega)
      rw [row_cons] at hu
      exact .inr (by simpa [Argument.form, hb] using hu.symm)

/-- The tokens of a row of arguments are the arguments, and they use the row up. -/
theorem scan_row (lookup : Lookup) (preserveQuotes : Bool) {arguments : List Argument}
    (h : List.IsChain Argument.Apart arguments) :
    (Token.scan (row arguments)).1.map (Token.value lookup preserveQuotes) =
        arguments.map (Argument.token preserveQuotes) ∧
      (Token.scan (row arguments)).2 = [] := by
  induction arguments with
  | nil =>
    rw [row, List.flatMap_nil, Token.scan_of_none rfl]
    exact ⟨rfl, rfl⟩
  | cons a arguments ih =>
    obtain ⟨hv, hr⟩ := ih h.tail
    obtain ⟨token, hn, ht⟩ := exists_next?_form a (stopsBare_row h)
    rw [Text.afterSpaces_replicate_append, afterSpaces_row] at hn
    rw [row_cons, Token.scan_of_some hn]
    exact ⟨by rw [List.map_cons, List.map_cons, ht, hv], hr⟩

theorem scan_replicate_append {t : Text} (n : Nat) (h : Token.next? t ≠ none) :
    Token.scan (List.replicate n Text.space ++ t) = Token.scan t := by
  have hn : Token.next? (List.replicate n Text.space ++ t) = Token.next? t := by
    rw [Token.next?, Token.next?, Text.afterSpaces_replicate_append]
  cases ht : Token.next? t with
  | none => exact absurd ht h
  | some found => rw [Token.scan_of_some (hn.trans ht), Token.scan_of_some ht]

/-- A line of arguments is read back argument by argument, with any variables. -/
theorem tokenize_line (lookup : Lookup) (preserveQuotes : Bool) {lead : Nat}
    {arguments : List Argument} (hlead : arguments = [] → lead = 0)
    (hapart : List.IsChain Argument.Apart arguments) :
    tokenize lookup preserveQuotes (line lead arguments) =
      .ok (arguments.map (Argument.token preserveQuotes)) := by
  obtain ⟨hv, hr⟩ := scan_row lookup preserveQuotes hapart
  have hs : Token.scan (line lead arguments) = Token.scan (row arguments) := by
    cases arguments with
    | nil => rw [line, hlead rfl]; rfl
    | cons a arguments =>
      obtain ⟨token, hn, -⟩ := exists_next?_form a (stopsBare_row hapart)
      exact scan_replicate_append lead (by rw [row_cons, hn]; simp)
  rw [tokenize_eq_scan, hs, if_pos hr, hv]

/-- The line ` a^^" \"\\"x ` holds a bare, a quoted and another bare argument without a gap. -/
theorem tokenize_line_without_gaps :
    tokenize Lookup.none true
        [Text.space, 0x61, Text.caret, Text.caret, Text.quote, Text.space, Text.backslash,
          Text.quote, Text.backslash, Text.backslash, Text.quote, 0x78, Text.space] =
      .ok [[0x61, Text.caret], [Text.quote, Text.space, Text.quote, Text.backslash, Text.quote],
        [0x78]] :=
  @tokenize_line Lookup.none true 1
    [⟨[0x61, Text.caret], false, 0, by decide, by decide⟩,
      ⟨[Text.space, Text.quote, Text.backslash], true, 0, by decide, by decide⟩,
      ⟨[0x78], false, 1, by decide, by decide⟩]
    (by simp) (by simp [Argument.Apart])

end Writing

end CommandText
