import CommandText.Proofs.Interchange
import CommandText.Proofs.Pairing

/-!
# Two percent signs are never an escape pair

The grammar has an alternative that takes two percent signs for one of them. It stands behind
`reference`, which takes the same two units for a reference to the empty name, so the alternative is
never reached and can be left out. A reference to the empty name stays as it is written unless the
lookup gives the empty name a value, so two percent signs come out as two.
-/

namespace CommandText

namespace Grammar

def escapeOthers : Peg Text :=
  .alt (escapePair Text.caret Text.caret)
    (.alt (escapePair Text.backslash Text.backslash) (escapePair Text.backslash Text.quote))

/-- `special` without the alternative for two percent signs. -/
def specialOthers (lookup : Lookup) : Peg Text := .alt (reference lookup) escapeOthers

/-- Where two percent signs are an escape pair, they are a reference to the empty name as well. -/
theorem parse_of_percent_pair {c rest : Cursor} {value : Text}
    (h : (escapePair Text.percent Text.percent).parse c = .success value rest) (lookup : Lookup) :
    rest.start = c.start + 2 ∧ name.parse c = .success [] rest ∧
      (reference lookup).parse c = .success (resolve lookup []) rest := by
  obtain ⟨hread, hbehind⟩ := Peg.parse_eq_success_iff.1 h
  have hahead := eq_of_read_escapePair hread
  have hname : name.parse c = .success [] rest := by
    apply Peg.parse_eq_success_iff.2
    rw [hahead]
    exact ⟨read_name_percent_pair rest.ahead, hbehind⟩
  refine ⟨?_, hname, ?_⟩
  · have hstart := hbehind.start_eq
    have hlength := congrArg List.length hahead
    rw [c.length_ahead, Cursor.remaining] at hlength
    simp only [List.length_cons] at hlength
    omega
  · rw [reference, Peg.parse, hname]
    rfl

theorem special_agrees_specialOthers (lookup : Lookup) :
    (special lookup).Agrees (specialOthers lookup) := by
  have hcovered : ∀ t, ((escapePair Text.percent Text.percent).read t).isSome →
      ((reference lookup).read t).isSome := by
    intro t h
    obtain ⟨⟨value, rest⟩, hread⟩ := Option.isSome_iff_exists.1 h
    rw [eq_of_read_escapePair hread, reference, Peg.read, read_name_percent_pair]
    rfl
  have hinner := Peg.alt_assoc_agrees (escapePair Text.percent Text.percent)
    (escapePair Text.caret Text.caret)
    (.alt (escapePair Text.backslash Text.backslash) (escapePair Text.backslash Text.quote))
  have houter := Peg.alt_assoc_agrees (reference lookup) (escapePair Text.percent Text.percent)
    escapeOthers
  have hdead := (Peg.alt_agrees_left hcovered).alt (.refl escapeOthers)
  exact (((Peg.Agrees.refl _).alt hinner).trans houter.symm).trans hdead

end Grammar

namespace Element

/-- What an element of a token adds to the token. A quote on its own is one of the quotes around it,
which are kept only on request. -/
def output (lookup : Lookup) (preserveQuotes : Bool) (e : Element) : Text :=
  if e = single Text.quote ∧ preserveQuotes = false then [] else e.value lookup

end Element

namespace Token

open Element

theorem value_eq_flatMap_output {token : Token} (h : token.Whole) (lookup : Lookup)
    (preserveQuotes : Bool) :
    token.value lookup preserveQuotes = token.elements.flatMap (output lookup preserveQuotes) := by
  have hparts : ∀ parts : List Element, single Text.quote ∉ parts →
      parts.flatMap (output lookup preserveQuotes) = parts.flatMap (Element.value lookup) := by
    intro parts hquote
    apply List.flatMap_congr
    intro e he
    have hne : e ≠ single Text.quote := fun heq => hquote (heq ▸ he)
    simp [output, hne]
  cases token with
  | quoted parts =>
    have hbody := hparts parts (forall_not_endsQuoted_iff.1 h)
    cases preserveQuotes <;> simp [value, elements, hbody, output, Element.value]
  | bare first others =>
    have hbody := hparts (first :: others) (quote_notMem_of_not_endsBare h)
    exact hbody.symm

/-- An element of a text that is no space begins somewhere in one of its tokens. -/
theorem exists_token_of_beginsAt {text : Text} {lead i : Nat} {row : List (Token × Nat)}
    {e : Element} (hrow : text.elements = List.replicate lead (single Text.space) ++ rowElements row)
    (h : BeginsAt text i e) (he : e ≠ single Text.space) :
    ∃ earlier token gap later front back, row = earlier ++ (token, gap) :: later ∧
      token.elements = front ++ e :: back ∧
      i = (Text.spaced lead (writtenRow earlier)).length + width front := by
  obtain ⟨before, behind, hsplit, rfl⟩ := h
  obtain ⟨before', rfl, hsplit'⟩ := eq_append_of_replicate_append (hrow.symm.trans hsplit) he
  obtain ⟨earlier, token, gap, later, front, back, rfl, htoken, rfl⟩ :=
    exists_token_of_rowElements hsplit' he
  refine ⟨earlier, token, gap, later, front, back, rfl, htoken, ?_⟩
  rw [← flatMap_written_rowElements, ← List.append_assoc, width_append]
  rfl

end Token

open Token Element

open Grammar in
/-- The alternative for two percent signs is dead. Wherever it would succeed, in any window, the
reference before it succeeds on the same two units with the empty name, and without it every text is
split alike. Under a lookup without a value for the empty name, two percent signs that start a
reference come out as two percent signs, between what comes out for the elements before and behind
them in their token. -/
theorem percent_pair_never_escapes (lookup : Lookup) (preserveQuotes : Bool) :
    (∀ c value rest, (escapePair Text.percent Text.percent).parse c = .success value rest →
      rest.start = c.start + 2 ∧ Grammar.name.parse c = .success [] rest ∧
        (Grammar.reference lookup).parse c = .success (resolve lookup []) rest) ∧
    (∀ text, tokenizeBy (terms (specialOthers lookup) preserveQuotes) text =
      tokenize lookup preserveQuotes text) ∧
    (lookup [] = none → ∀ text tokens, tokenize lookup preserveQuotes text = .ok tokens →
      ∃ (lead : Nat) (row : List (Token × Nat)), text = Text.spaced lead (writtenRow row) ∧
        tokens = row.map (fun p => p.1.value lookup preserveQuotes) ∧
        ∀ i, BeginsAt text i (Element.reference []) →
          ∃ earlier token gap later front back, row = earlier ++ (token, gap) :: later ∧
            token.elements = front ++ Element.reference [] :: back ∧
            i = (Text.spaced lead (writtenRow earlier)).length + width front ∧
            token.value lookup preserveQuotes =
              front.flatMap (output lookup preserveQuotes) ++ [Text.percent, Text.percent] ++
                back.flatMap (output lookup preserveQuotes)) := by
  refine ⟨fun c value rest h => parse_of_percent_pair h lookup, ?_, ?_⟩
  · intro text
    have hterm := term_agrees (special_agrees_specialOthers lookup) preserveQuotes
    rw [tokenize_eq_tokenizeBy]
    exact (tokenizeBy_congr hterm text).symm
  · intro hlookup text tokens h
    obtain ⟨tokens, hd, -, rfl⟩ := tokenize_eq_ok_iff.1 h
    obtain ⟨lead, row, rfl, htext, hes, -⟩ := exists_spaced_of_derives hd
    refine ⟨lead, row, htext, List.map_map, ?_⟩
    intro i hi
    obtain ⟨earlier, token, gap, later, front, back, hsplit, htoken, hpos⟩ :=
      exists_token_of_beginsAt hes hi (by simp)
    have hwhole : token.Whole := hd.whole token (by simp [hsplit])
    have hpair : output lookup preserveQuotes (Element.reference []) =
        [Text.percent, Text.percent] := by
      simp [output, Element.value, hlookup, Element.written]
    refine ⟨earlier, token, gap, later, front, back, hsplit, htoken, hpos, ?_⟩
    rw [value_eq_flatMap_output hwhole, htoken, List.flatMap_append, List.flatMap_cons, hpair,
      List.append_assoc]

/-- The text `a%%"%%%%"`. -/
def doubledPercents : Text :=
  [0x61, Text.percent, Text.percent, Text.quote, Text.percent, Text.percent, Text.percent,
    Text.percent, Text.quote]

/-- All six percent signs of `a%%"%%%%"` come out, also those of the second pair between the quotes;
and the first two, in a window of their own, are a reference. -/
theorem percent_pair_never_escapes_between_quotes :
    (∃ rest, (Grammar.reference Lookup.none).parse
      (Cursor.window doubledPercents 1 3 (by decide) (by decide)) =
        .success [Text.percent, Text.percent] rest ∧ rest.start = 3) ∧
    tokenize Lookup.none true doubledPercents =
      .ok [[0x61, Text.percent, Text.percent], [Text.quote, Text.percent, Text.percent,
        Text.percent, Text.percent, Text.quote]] ∧
    BeginsAt doubledPercents 6 (Element.reference []) ∧
    ∃ (token : Token) (front back : List Element),
      token.elements = front ++ Element.reference [] :: back ∧
      token.value Lookup.none true = front.flatMap (output Lookup.none true) ++
        [Text.percent, Text.percent] ++ back.flatMap (output Lookup.none true) := by
  obtain ⟨hwindow, -, hout⟩ := percent_pair_never_escapes Lookup.none true
  have h : tokenize Lookup.none true doubledPercents =
      .ok [[0x61, Text.percent, Text.percent], [Text.quote, Text.percent, Text.percent,
        Text.percent, Text.percent, Text.quote]] := rfl
  have hbegins : BeginsAt (doubledPercents.take 6 ++
      Text.percent :: ([] ++ Text.percent :: [Text.quote])) 6 (Element.reference []) :=
    ⟨_, _, elements_of_pair (by simp) (by decide), width_elements _⟩
  obtain ⟨hstart, -, hreference⟩ := hwindow
    (Cursor.window doubledPercents 1 3 (by decide) (by decide)) [Text.percent] _ rfl
  obtain ⟨lead, row, -, -, hplace⟩ := hout rfl _ _ h
  obtain ⟨earlier, token, gap, later, front, back, -, htoken, -, hvalue⟩ := hplace 6 hbegins
  exact ⟨⟨_, hreference, hstart⟩, h, hbegins, token, front, back, htoken, hvalue⟩

end CommandText
