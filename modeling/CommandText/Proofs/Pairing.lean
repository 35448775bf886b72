import CommandText.Proofs.Layout
import CommandText.Proofs.References

/-!
# Percent signs in pairs

Whether a percent sign opens a reference, closes one or stands on its own is decided element by
element, in bare terms, between quotes and behind escapes. It comes to a plain rule: the first and
the second percent sign of a text make a pair, the third and the fourth, and so on, and only the
last of an odd number is left. Neither quotes nor spaces, carets or backslashes have a say in it,
and both signs of a pair stand in the same token.
-/

namespace CommandText

theorem append_eq_append_cons {α : Type} {row row' front back : List α} {x : α}
    (h : row ++ row' = front ++ x :: back) :
    (∃ back', row = front ++ x :: back') ∨
      ∃ front', front = row ++ front' ∧ row' = front' ++ x :: back := by
  rcases List.append_eq_append_iff.1 h with ⟨front', rfl, h'⟩ | ⟨back', rfl, h'⟩
  · exact .inr ⟨front', rfl, h'⟩
  · cases back' with
    | nil => exact .inr ⟨[], by simp, by simpa using h'.symm⟩
    | cons y back' =>
      rw [List.cons_append, List.cons.injEq] at h'
      exact .inl ⟨back', by rw [h'.1]⟩

namespace Text

/-- The texts between the first and the second percent sign, the third and the fourth, and so on. -/
def pairedNames (t : Text) : List Text :=
  (List.range (t.count percent / 2)).map fun k => (t.splitOn percent).getD (2 * k + 1) []

theorem splitOn_append_cons {sep : UInt16} {a : Text} (h : sep ∉ a) (b : Text) :
    splitOn sep (a ++ sep :: b) = a :: splitOn sep b := by
  induction a with
  | nil => simp [splitOn]
  | cons u a ih =>
    rw [List.mem_cons, not_or] at h
    rw [List.cons_append, splitOn, if_neg (Ne.symm h.1), ih h.2]

theorem pairedNames_of_percent_notMem {t : Text} (h : percent ∉ t) : t.pairedNames = [] := by
  simp [pairedNames, List.count_eq_zero.2 h]

theorem pairedNames_cons_of_ne {u : UInt16} (t : Text) (h : u ≠ percent) :
    pairedNames (u :: t) = t.pairedNames := by
  unfold pairedNames
  rw [List.count_cons_of_ne h, splitOn, if_neg h]
  cases hs : splitOn percent t with
  | nil => exact absurd hs (splitOn_ne_nil percent t)
  | cons piece pieces => rfl

theorem pairedNames_append {a : Text} (b : Text) (h : percent ∉ a) :
    pairedNames (a ++ b) = b.pairedNames := by
  induction a with
  | nil => rfl
  | cons u a ih =>
    rw [List.mem_cons, not_or] at h
    rw [List.cons_append, pairedNames_cons_of_ne _ (Ne.symm h.1), ih h.2]

theorem pairedNames_of_pair {name : Text} (h : percent ∉ name) (t : Text) :
    pairedNames (percent :: (name ++ percent :: t)) = name :: t.pairedNames := by
  have hcount : List.count percent (percent :: (name ++ percent :: t)) / 2 =
      t.count percent / 2 + 1 := by
    rw [List.count_cons_self, List.count_append, List.count_cons_self, List.count_eq_zero.2 h]
    omega
  have hsplit : splitOn percent (percent :: (name ++ percent :: t)) =
      [] :: name :: splitOn percent t := by
    rw [splitOn, if_pos rfl, splitOn_append_cons h]
  unfold pairedNames
  rw [hcount, hsplit, List.range_succ_eq_map, List.map_cons, List.map_map]
  rfl

end Text

namespace Element

def name? : Element → Option Text
  | reference name => some name
  | _ => none

/-- The references of a text are its pairs of percent signs. -/
theorem filterMap_name?_elements (t : Text) : t.elements.filterMap name? = t.pairedNames := by
  induction t using induction_on with
  | nil => rw [elements_nil]; rfl
  | next t e rest h ih =>
    obtain ⟨rfl, hf⟩ := next?_eq_some_iff.1 h
    rw [elements_of_next? h, List.filterMap_cons, ih]
    cases e with
    | reference name =>
      rw [written, List.cons_append, List.append_assoc, List.singleton_append,
        Text.pairedNames_of_pair hf]
      rfl
    | pair u v =>
      rw [written, Text.pairedNames_append rest (percent_notMem_of_isPair hf)]
      rfl
    | single u =>
      by_cases hu : u = Text.percent
      · have hcount : List.count Text.percent (u :: rest) = 1 := by
          rw [hu, List.count_cons_self, List.count_eq_zero.2 (hf.1 hu)]
        have hpaired : Text.pairedNames (u :: rest) = [] := by
          unfold Text.pairedNames
          rw [hcount]
          rfl
        rw [written, List.singleton_append, hpaired,
          Text.pairedNames_of_percent_notMem (hf.1 hu)]
        rfl
      · rw [written, List.singleton_append, Text.pairedNames_cons_of_ne rest hu]
        rfl

theorem elements_of_pair {before name behind : Text} (hname : Text.percent ∉ name)
    (heven : Even (before.count Text.percent)) :
    Text.elements (before ++ Text.percent :: (name ++ Text.percent :: behind)) =
      before.elements ++ reference name :: behind.elements := by
  have hnext : next? (Text.percent :: (name ++ Text.percent :: behind)) =
      some (reference name, behind) := next?_eq_some_iff.2 ⟨by simp [written], hname⟩
  rw [elements_append (meets_of_even (.inl heven) (by simp)), elements_of_next? hnext]

theorem elements_of_last_percent {before behind : Text} (hbehind : Text.percent ∉ behind)
    (heven : Even (before.count Text.percent)) :
    Text.elements (before ++ Text.percent :: behind) =
      before.elements ++ single Text.percent :: behind.elements := by
  have hnext : next? (Text.percent :: behind) = some (single Text.percent, behind) := by
    refine next?_eq_some_iff.2 ⟨rfl, fun _ => hbehind, ?_⟩
    intro v _ hpair
    exact ne_percent_of_isPair hpair rfl
  rw [elements_append (meets_of_even (.inl heven) (by simp)), elements_of_next? hnext]

end Element

namespace Token

open Element

def names (token : Token) : List Text := token.elements.filterMap name?

/-- An element stands behind a text, in one of the tokens of a row, and what it stands for is a part
of what the token stands for. -/
def StandsIn (lead : Nat) (row : List (Token × Nat)) (before : Text) (e : Element) : Prop :=
  ∃ earlier token gap later front back, row = earlier ++ (token, gap) :: later ∧
    token.elements = front ++ e :: back ∧
    before = Text.spaced lead (writtenRow earlier) ++ front.flatMap Element.written ∧
    ∀ lookup preserveQuotes, e.value lookup <:+: token.value lookup preserveQuotes

theorem filterMap_name?_rowElements (row : List (Token × Nat)) :
    (rowElements row).filterMap name? = row.flatMap fun p => p.1.names := by
  induction row with
  | nil => rfl
  | cons p row ih =>
    rw [rowElements_cons, List.filterMap_append, List.filterMap_append, ih,
      List.filterMap_replicate_of_none rfl]
    rfl

theorem flatMap_value_parts_infix (token : Token) (lookup : Lookup) (preserveQuotes : Bool) :
    token.parts.flatMap (Element.value lookup) <:+: token.value lookup preserveQuotes := by
  cases token with
  | quoted parts =>
    cases preserveQuotes with
    | false => exact List.infix_rfl
    | true => exact ⟨[Text.quote], [Text.quote], rfl⟩
  | bare first others => exact List.infix_rfl

theorem value_infix_of_mem_elements {token : Token} {e : Element} (he : e ∈ token.elements)
    (hquote : e ≠ single Text.quote) (lookup : Lookup) (preserveQuotes : Bool) :
    e.value lookup <:+: token.value lookup preserveQuotes := by
  have hparts : e ∈ token.parts := by
    cases token with
    | quoted body => simpa [elements, Token.parts, hquote] using he
    | bare first others => exact he
  obtain ⟨front, back, hsplit⟩ := List.append_of_mem hparts
  have hinfix : e.value lookup <:+: token.parts.flatMap (Element.value lookup) := by
    refine ⟨front.flatMap (Element.value lookup), back.flatMap (Element.value lookup), ?_⟩
    rw [hsplit, List.flatMap_append, List.flatMap_cons, List.append_assoc]
  exact hinfix.trans (token.flatMap_value_parts_infix lookup preserveQuotes)

theorem eq_append_of_replicate_append {n : Nat} {es front back : List Element} {e : Element}
    (h : List.replicate n (single Text.space) ++ es = front ++ e :: back)
    (he : e ≠ single Text.space) :
    ∃ front', front = List.replicate n (single Text.space) ++ front' ∧
      es = front' ++ e :: back := by
  apply (append_eq_append_cons h).resolve_left
  rintro ⟨back', hback⟩
  apply he
  apply List.eq_of_mem_replicate (n := n)
  rw [hback]
  simp

theorem exists_token_of_rowElements {row : List (Token × Nat)} {front back : List Element}
    {e : Element} (h : rowElements row = front ++ e :: back) (he : e ≠ single Text.space) :
    ∃ earlier token gap later front' back', row = earlier ++ (token, gap) :: later ∧
      token.elements = front' ++ e :: back' ∧ front = rowElements earlier ++ front' := by
  induction row generalizing front with
  | nil =>
    have := congrArg List.length h
    simp [rowElements] at this
  | cons p row ih =>
    obtain ⟨token, gap⟩ := p
    rw [rowElements_cons] at h
    rcases append_eq_append_cons h with ⟨back', hback⟩ | ⟨front', rfl, h'⟩
    · exact ⟨[], token, gap, row, front, back', rfl, hback, rfl⟩
    · obtain ⟨front'', rfl, hrow⟩ := eq_append_of_replicate_append h' he
      obtain ⟨earlier, token', gap', later, front, back', rfl, ht, rfl⟩ := ih hrow
      refine ⟨(token, gap) :: earlier, token', gap', later, front, back', rfl, ht, ?_⟩
      rw [rowElements_cons]
      simp

/-- An element of a text that is neither a space nor a quote stands in one of the tokens that the
text consists of. -/
theorem standsIn_of_elements {t before : Text} {lead : Nat} {row : List (Token × Nat)}
    {e : Element} {back : List Element}
    (hrow : t.elements = List.replicate lead (single Text.space) ++ rowElements row)
    (h : t.elements = before.elements ++ e :: back) (hspace : e ≠ single Text.space)
    (hquote : e ≠ single Text.quote) : StandsIn lead row before e := by
  obtain ⟨front', hfront, hrow'⟩ := eq_append_of_replicate_append (hrow.symm.trans h) hspace
  obtain ⟨earlier, token, gap, later, front, back', hsplit, ht, rfl⟩ :=
    exists_token_of_rowElements hrow' hspace
  refine ⟨earlier, token, gap, later, front, back', hsplit, ht, ?_, ?_⟩
  · rw [← flatMap_written_elements before, hfront, ← List.append_assoc, List.flatMap_append,
      flatMap_written_rowElements]
  · apply value_infix_of_mem_elements _ hquote
    rw [ht]
    simp

end Token

open Token Element

/-- Percent signs pair by their number. An accepted text consists of tokens with spaces around them,
the names that the tokens refer to are those between the percent signs with an odd number and the
next one each, both signs of each pair stand in one token, and so does, as itself, the last of an
odd number of signs. Lookups that agree on these names agree on every text, accepted or not. -/
theorem percent_signs_pair_by_count (text : Text) :
    (∀ lookup preserveQuotes tokens, tokenize lookup preserveQuotes text = .ok tokens →
      ∃ (lead : Nat) (row : List (Token × Nat)),
        text = Text.spaced lead (writtenRow row) ∧
        (∀ lookup preserveQuotes, tokenize lookup preserveQuotes text =
          .ok (row.map fun p => p.1.value lookup preserveQuotes)) ∧
        (row.flatMap fun p => p.1.names) = text.pairedNames ∧
        (∀ before name behind, text = before ++ Text.percent :: (name ++ Text.percent :: behind) →
          Text.percent ∉ name → Even (before.count Text.percent) →
          StandsIn lead row before (reference name)) ∧
        ∀ before behind, text = before ++ Text.percent :: behind → Text.percent ∉ behind →
          Even (before.count Text.percent) → StandsIn lead row before (single Text.percent)) ∧
    ∀ f g : Lookup, (∀ name ∈ text.pairedNames, f name = g name) →
      ∀ preserveQuotes, tokenize f preserveQuotes text = tokenize g preserveQuotes text := by
  constructor
  · intro lookup preserveQuotes tokens h
    obtain ⟨tokens, hd, hne, -⟩ := tokenize_eq_ok_iff.1 h
    obtain ⟨lead, row, rfl, htext, hes, -⟩ := exists_spaced_of_derives hd
    refine ⟨lead, row, htext, ?_, ?_, ?_, ?_⟩
    · intro lookup preserveQuotes
      refine tokenize_eq_ok_iff.2 ⟨_, hd, hne, ?_⟩
      rw [List.map_map]
      rfl
    · rw [← filterMap_name?_elements, hes, List.filterMap_append, filterMap_name?_rowElements,
        List.filterMap_replicate_of_none rfl]
      rfl
    · rintro before name behind rfl hname heven
      exact standsIn_of_elements hes (elements_of_pair hname heven) (by simp) (by simp)
    · rintro before behind rfl hbehind heven
      exact standsIn_of_elements hes (elements_of_last_percent hbehind heven) (by decide)
        (by decide)
  · intro f g hagree preserveQuotes
    apply tokenize_congr
    intro name hname
    apply hagree
    rw [← filterMap_name?_elements]
    exact List.mem_filterMap.2 ⟨_, hname, rfl⟩

/-- In the text `c ^%a" %x%` the first two percent signs enclose a quote and a space, in spite of
the caret before them, and the third one is left. -/
theorem percent_signs_pair_around_quote :
    tokenize Lookup.none false
        [0x63, Text.space, Text.caret, Text.percent, 0x61, Text.quote, Text.space, Text.percent,
          0x78, Text.percent] =
      .ok [[0x63], [Text.caret, Text.percent, 0x61, Text.quote, Text.space, Text.percent, 0x78,
        Text.percent]] ∧
    ∃ (lead : Nat) (row : List (Token × Nat)),
      (row.flatMap fun p => p.1.names) = [[0x61, Text.quote, Text.space]] ∧
      StandsIn lead row [0x63, Text.space, Text.caret] (reference [0x61, Text.quote, Text.space]) ∧
      StandsIn lead row [0x63, Text.space, Text.caret, Text.percent, 0x61, Text.quote, Text.space,
        Text.percent, 0x78] (single Text.percent) := by
  have h : tokenize Lookup.none false
        [0x63, Text.space, Text.caret, Text.percent, 0x61, Text.quote, Text.space, Text.percent,
          0x78, Text.percent] =
      .ok [[0x63], [Text.caret, Text.percent, 0x61, Text.quote, Text.space, Text.percent, 0x78,
        Text.percent]] := rfl
  obtain ⟨lead, row, -, -, hnames, hpair, hlast⟩ := (percent_signs_pair_by_count _).1 _ _ _ h
  refine ⟨h, lead, row, hnames, ?_, ?_⟩
  · exact hpair _ _ [0x78, Text.percent] rfl (by decide) (by decide)
  · exact hlast _ [] rfl (by decide) (by decide)

end CommandText
