import CommandText.Proofs.Layout

/-!
# Texts joined by spaces

Texts with spaces between them have the tokens of each, as long as a percent sign that is left on
its own in the first does not find a second one behind the spaces. For the same reason the spaces of
a text may be changed: the tokens as they stand in the text, joined by single spaces, are the same
tokens again. Where no pair of units stands for the second of them and no variable has a value, the
tokens as they stand in the text are the tokens that are returned, if quotes are preserved.
-/

namespace CommandText

open Element Token

/-- Accepted texts with spaces between them are accepted with the tokens of both, if no percent sign
of the first makes a pair with one of the second. -/
theorem tokenize_append_spaces_append {lookup : Lookup} {preserveQuotes : Bool} {a b : Text}
    {ta tb : List Text} {k : Nat} (ha : tokenize lookup preserveQuotes a = .ok ta)
    (hb : tokenize lookup preserveQuotes b = .ok tb) (hk : 1 ≤ k) (hne : ¬(a = [] ∧ b = []))
    (hp : Even (a.count Text.percent) ∨ Text.percent ∉ b) :
    tokenize lookup preserveQuotes (a ++ List.replicate k Text.space ++ b) = .ok (ta ++ tb) := by
  obtain ⟨tokens, hd, hnil, rfl⟩ := tokenize_eq_ok_iff.1 ha
  obtain ⟨tokens', hd', hnil', rfl⟩ := tokenize_eq_ok_iff.1 hb
  obtain ⟨k, rfl⟩ := Nat.exists_eq_add_of_le' hk
  have hmeets : Meets a.elements (List.replicate (k + 1) Text.space ++ b) := by
    apply meets_of_even
    · apply hp.imp_right
      intro hb hmem
      rcases List.mem_append.1 hmem with hmem | hmem
      · exact absurd (List.eq_of_mem_replicate hmem) (by decide)
      · exact hb hmem
    · simp [List.replicate_succ]
  refine tokenize_eq_ok_iff.2 ⟨tokens ++ tokens', ?_, ?_, by rw [List.map_append]⟩
  · rw [List.append_assoc, elements_append hmeets, elements_replicate_append]
    apply hd.append (hd'.replicate_append (k + 1))
    simp [List.replicate_succ, endsAt]
  · right
    intro happend
    obtain ⟨rfl, rfl⟩ := List.append_eq_nil_iff.1 happend
    exact hne ⟨hnil.resolve_right (by simp), hnil'.resolve_right (by simp)⟩

/-- The texts `^%A%` and `"x" \`, with spaces between them. -/
theorem tokenize_append_spaces_lone :
    tokenize Lookup.none true
        [Text.caret, Text.percent, 0x41, Text.percent, Text.space, Text.space, Text.quote, 0x78,
          Text.quote, Text.space, Text.backslash] =
      .ok [[Text.caret, Text.percent, 0x41, Text.percent], [Text.quote, 0x78, Text.quote],
        [Text.backslash]] :=
  @tokenize_append_spaces_append Lookup.none true
    [Text.caret, Text.percent, 0x41, Text.percent]
    [Text.quote, 0x78, Text.quote, Text.space, Text.backslash] _ _ 2 rfl rfl (by decide) (by simp)
    (.inl (by decide))

namespace Token

/-- The elements of tokens with a space between neighbours. -/
def joinElements : List Token → List Element
  | [] => []
  | [token] => token.elements
  | token :: next :: rest => token.elements ++ single Text.space :: joinElements (next :: rest)

theorem flatMap_written_joinElements (tokens : List Token) :
    (joinElements tokens).flatMap Element.written =
      Text.join [Text.space] (tokens.map written) := by
  fun_induction joinElements tokens with
  | case1 => rfl
  | case2 token => rfl
  | case3 token next rest ih =>
    rw [List.flatMap_append, List.flatMap_cons, ih]
    exact (List.append_assoc _ _ _).symm

theorem Derives.of_whole {token : Token} (h : token.Whole) : Derives token.elements [token] := by
  cases token with
  | quoted parts => exact .quoted h .nil
  | bare first others =>
    have hd := Derives.bare h (by simp) .nil
    rwa [List.append_nil] at hd

theorem derives_joinElements {tokens : List Token} (h : ∀ token ∈ tokens, token.Whole) :
    Derives (joinElements tokens) tokens := by
  fun_induction joinElements tokens with
  | case1 => exact .nil
  | case2 token => exact .of_whole (h token List.mem_cons_self)
  | case3 token next rest ih =>
    rw [List.forall_mem_cons] at h
    exact (Derives.of_whole h.1).append (.space (ih h.2)) (by simp [endsAt])

theorem mem_joinElements {tokens : List Token} {e : Element} (h : e ∈ joinElements tokens) :
    e = single Text.space ∨ ∃ token ∈ tokens, e ∈ token.elements := by
  fun_induction joinElements tokens with
  | case1 => cases h
  | case2 token => exact .inr ⟨token, List.mem_cons_self, h⟩
  | case3 token next rest ih =>
    rw [List.mem_append, List.mem_cons] at h
    rcases h with h | rfl | h
    · exact .inr ⟨token, List.mem_cons_self, h⟩
    · exact .inl rfl
    · obtain rfl | ⟨token', ht, he⟩ := ih h
      · exact .inl rfl
      · exact .inr ⟨token', List.mem_cons_of_mem token ht, he⟩

theorem Derives.mem_of_mem_elements {es : List Element} {tokens : List Token}
    (h : Derives es tokens) {token : Token} (ht : token ∈ tokens) {e : Element}
    (he : e ∈ token.elements) : e ∈ es := by
  obtain ⟨lead, row, rfl, rfl, -⟩ := h.exists_layout
  obtain ⟨p, hp, rfl⟩ := List.mem_map.1 ht
  apply List.mem_append_right
  exact List.mem_flatMap.2 ⟨p, hp, List.mem_append_left _ he⟩

theorem Derives.percent_mem_of_join {es : List Element} {tokens : List Token}
    (h : Derives es tokens)
    (hp : Text.percent ∈ (joinElements tokens).flatMap Element.written) :
    Text.percent ∈ es.flatMap Element.written := by
  obtain ⟨e, he, hpe⟩ := List.mem_flatMap.1 hp
  rcases mem_joinElements he with rfl | ⟨token, ht, he⟩
  · exact absurd (List.mem_singleton.1 hpe) (by decide)
  · exact List.mem_flatMap.2 ⟨e, h.mem_of_mem_elements ht he, hpe⟩

theorem coherent_joinElements_cons {token : Token} {tokens : List Token} {es : List Element}
    (h : Coherent (token.elements ++ es)) (hd : Derives es tokens)
    (hjoin : Coherent (joinElements tokens)) : Coherent (joinElements (token :: tokens)) := by
  obtain ⟨htoken, -, hmeets⟩ := coherent_append_iff.1 h
  cases tokens with
  | nil => exact htoken
  | cons next rest =>
    have hspace : Coherent (single Text.space :: joinElements (next :: rest)) := by
      refine ⟨⟨fun hu => absurd hu (by decide), ?_⟩, hjoin⟩
      intro v _
      exact isDelimiter_space.not_isPair v
    refine coherent_append_iff.2 ⟨htoken, hspace, ?_, ?_⟩
    · intro hp hmem
      rw [List.flatMap_cons, List.mem_append] at hmem
      rcases hmem with hmem | hmem
      · exact absurd (List.mem_singleton.1 hmem) (by decide)
      · exact hmeets.percent hp (hd.percent_mem_of_join hmem)
    · rintro u v _ ⟨⟩
      exact not_isPair_of_eq (.inr rfl)

/-- No gap between tokens is needed to keep elements apart, so that single spaces do instead. -/
theorem Derives.coherent_joinElements {es : List Element} {tokens : List Token}
    (h : Derives es tokens) (hes : Coherent es) : Coherent (joinElements tokens) := by
  induction h with
  | nil => trivial
  | space _ ih => exact ih hes.2
  | @quoted parts es tokens _ hd ih =>
    have hrow : Coherent ((Token.quoted parts).elements ++ es) := by
      simpa [elements] using hes
    exact coherent_joinElements_cons hrow hd (ih (coherent_append_iff.1 hrow).2.1)
  | @bare first others es tokens _ _ hd ih =>
    have hrow : Coherent ((Token.bare first others).elements ++ es) := hes
    exact coherent_joinElements_cons hrow hd (ih (coherent_append_iff.1 hrow).2.1)

end Token

/-- The tokens as they stand in an accepted text, joined by single spaces, have the same values. -/
theorem tokenize_join_written {t : Text} {tokens : List Token} (h : Derives t.elements tokens)
    (lookup : Lookup) (preserveQuotes : Bool) :
    tokenize lookup preserveQuotes (Text.join [Text.space] (tokens.map Token.written)) =
      .ok (tokens.map (Token.value lookup preserveQuotes)) := by
  refine tokenize_eq_ok_iff.2 ⟨tokens, ?_, ?_, rfl⟩
  · rw [← flatMap_written_joinElements,
      elements_flatMap_written (h.coherent_joinElements (coherent_elements t))]
    exact derives_joinElements h.whole
  · cases tokens with
    | nil => exact .inl rfl
    | cons token rest => exact .inr (by simp)

theorem Element.written_infix_of_mem {t : Text} {e : Element} (h : e ∈ t.elements) :
    e.written <:+: t := by
  obtain ⟨front, back, hes⟩ := List.append_of_mem h
  refine ⟨front.flatMap written, back.flatMap written, ?_⟩
  rw [← flatMap_written_elements t, hes, List.flatMap_append, List.flatMap_cons, List.append_assoc]

theorem Element.value_none_eq_written {e : Element} (h : ∀ u v, e ≠ pair u v) :
    e.value Lookup.none = e.written := by
  cases e with
  | reference name => rfl
  | pair u v => exact absurd rfl (h u v)
  | single u => rfl

theorem Token.value_none_eq_written {token : Token} (h : ∀ u v, pair u v ∉ token.elements) :
    token.value Lookup.none true = token.written := by
  have hvalues : token.elements.flatMap (Element.value Lookup.none) = token.written := by
    apply List.flatMap_congr
    intro e he
    apply Element.value_none_eq_written
    rintro u v rfl
    exact h u v he
  rw [← hvalues]
  cases token with
  | quoted parts => simp [value, elements, Element.value]
  | bare first others => rfl

/-- A text without pairs of units that stand for the second of them, split without variables and
with quotes preserved, is its tokens with spaces around them, at least one between neighbours that
do not start with a quote; and the tokens joined by single spaces are split into the same tokens. -/
theorem tokens_rejoin {text : Text} {tokens : List Text}
    (hcaret : ¬[Text.caret, Text.caret] <:+: text)
    (hbackslash : ¬[Text.backslash, Text.backslash] <:+: text)
    (hquote : ¬[Text.backslash, Text.quote] <:+: text)
    (h : tokenize Lookup.none true text = .ok tokens) :
    (∃ (lead : Nat) (row : List (Text × Nat)), row.map Prod.fst = tokens ∧
      text = Text.spaced lead row ∧ row.IsChain Text.Apart) ∧
    tokenize Lookup.none true (Text.join [Text.space] tokens) = .ok tokens := by
  obtain ⟨found, hd, -, rfl⟩ := tokenize_eq_ok_iff.1 h
  have hpair : ∀ u v, pair u v ∉ text.elements := by
    intro u v hmem
    have hpart := written_infix_of_mem hmem
    rcases isPair_iff.1 (isPair_of_mem_elements hmem) with ⟨rfl, rfl⟩ | ⟨rfl, rfl | rfl⟩
    · exact hcaret hpart
    · exact hbackslash hpart
    · exact hquote hpart
  have hvalues : found.map (Token.value Lookup.none true) = found.map Token.written := by
    apply List.map_congr_left
    intro token ht
    apply Token.value_none_eq_written
    intro u v hmem
    exact hpair u v (hd.mem_of_mem_elements ht hmem)
  constructor
  · obtain ⟨lead, row, hrow, htext, -, hchain⟩ := exists_spaced_of_derives hd
    refine ⟨lead, writtenRow row, ?_, htext, hchain⟩
    rw [hvalues, ← hrow, writtenRow, List.map_map, List.map_map]
    rfl
  · rw [hvalues, tokenize_join_written hd, hvalues]

/-- The text ` a"b c"%" %^` has a bare token, a quoted one without a space before it, and a bare one
without a space before it, which are three tokens again with single spaces between them. -/
theorem tokens_rejoin_glued :
    tokenize Lookup.none true
        [Text.space, 0x61, Text.quote, 0x62, Text.space, 0x63, Text.quote, Text.percent, Text.quote,
          Text.space, Text.percent, Text.caret] =
      .ok [[0x61], [Text.quote, 0x62, Text.space, 0x63, Text.quote],
        [Text.percent, Text.quote, Text.space, Text.percent, Text.caret]] ∧
    tokenize Lookup.none true
        [0x61, Text.space, Text.quote, 0x62, Text.space, 0x63, Text.quote, Text.space, Text.percent,
          Text.quote, Text.space, Text.percent, Text.caret] =
      .ok [[0x61], [Text.quote, 0x62, Text.space, 0x63, Text.quote],
        [Text.percent, Text.quote, Text.space, Text.percent, Text.caret]] := by
  have h : tokenize Lookup.none true
        [Text.space, 0x61, Text.quote, 0x62, Text.space, 0x63, Text.quote, Text.percent, Text.quote,
          Text.space, Text.percent, Text.caret] =
      .ok [[0x61], [Text.quote, 0x62, Text.space, 0x63, Text.quote],
        [Text.percent, Text.quote, Text.space, Text.percent, Text.caret]] := rfl
  exact ⟨h, (tokens_rejoin (by decide) (by decide) (by decide) h).2⟩

end CommandText
