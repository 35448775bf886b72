import CommandText.Proofs.Joining
import CommandText.Proofs.Pairing

/-!
# Texts that are split at their spaces

In a text without quotes, pairs and references every element is a unit on its own. The grammar then
comes to nothing more than cutting the text at its spaces: the tokens are the pieces between them
that are not empty, and neither the lookup nor the way quotes are treated has a say in it.
-/

namespace CommandText

namespace Text

theorem splitOn_of_notMem {sep : UInt16} {t : Text} (h : sep ∉ t) : splitOn sep t = [t] := by
  induction t with
  | nil => rfl
  | cons u t ih =>
    rw [List.mem_cons, not_or] at h
    rw [splitOn, if_neg (Ne.symm h.1), ih h.2]

end Text

namespace Element

theorem elements_eq_map_single {t : Text} (h : ∀ e ∈ t.elements, ∃ u, e = single u) :
    t.elements = t.map single := by
  have hrow : ∀ es : List Element, (∀ e ∈ es, ∃ u, e = single u) →
      es = (es.flatMap written).map single := by
    intro es hes
    induction es with
    | nil => rfl
    | cons e es ih =>
      obtain ⟨⟨u, rfl⟩, hrest⟩ := List.forall_mem_cons.1 hes
      exact congrArg (single u :: ·) (ih hrest)
  have ht := hrow t.elements h
  rwa [flatMap_written_elements] at ht

/-- A reference takes two percent signs and a pair takes both of its units, so a text that has no
quote and does not hold them has neither. -/
theorem elements_of_plain {t : Text} (hquote : Text.quote ∉ t) (hpercent : t.count Text.percent ≤ 1)
    (hcaret : ¬[Text.caret, Text.caret] <:+: t)
    (hbackslash : ¬[Text.backslash, Text.backslash] <:+: t) : t.elements = t.map single := by
  apply elements_eq_map_single
  intro e he
  have hpart := written_infix_of_mem he
  cases e with
  | single u => exact ⟨u, rfl⟩
  | reference name =>
    have hcount : (reference name).written.count Text.percent = name.count Text.percent + 2 := by
      simp [written]
    have hle := hpart.sublist.count_le Text.percent
    omega
  | pair u v =>
    rcases isPair_iff.1 (isPair_of_mem_elements he) with ⟨rfl, rfl⟩ | ⟨rfl, rfl | rfl⟩
    · exact absurd hpart hcaret
    · exact absurd hpart hbackslash
    · exact absurd (hpart.subset (by simp [written])) hquote

end Element

namespace Token

open Element

/-- The bare token that a piece without quotes and spaces makes, unless it is empty. -/
def ofPiece? : Text → Option Token
  | [] => none
  | u :: piece => some (bare (single u) (piece.map single))

theorem flatMap_value_map_single (lookup : Lookup) (t : Text) :
    (t.map single).flatMap (Element.value lookup) = t := by
  induction t with
  | nil => rfl
  | cons u t ih => exact congrArg (u :: ·) ih

theorem map_value_pieces (lookup : Lookup) (preserveQuotes : Bool) (pieces : List Text) :
    (pieces.filterMap ofPiece?).map (value lookup preserveQuotes) = pieces.filter (· ≠ []) := by
  induction pieces with
  | nil => rfl
  | cons piece pieces ih =>
    cases piece with
    | nil => rwa [List.filterMap_cons_none rfl, List.filter_cons_of_neg (by simp)]
    | cons u piece =>
      have hvalue := flatMap_value_map_single lookup (u :: piece)
      rw [List.filter_cons_of_pos (by simp), ← ih]
      exact congrArg (· :: (pieces.filterMap ofPiece?).map (value lookup preserveQuotes)) hvalue

theorem Derives.of_piece {piece : Text} {es : List Element} {tokens : List Token}
    (hspace : Text.space ∉ piece) (hquote : Text.quote ∉ piece) (h : Derives es tokens)
    (hend : ∀ e ∈ es.head?, endsBare e) :
    Derives (piece.map single ++ es) ((ofPiece? piece).toList ++ tokens) := by
  cases piece with
  | nil => exact h
  | cons u piece =>
    refine .bare ?_ hend h
    intro e he hstop
    rw [← List.map_cons] at he
    obtain ⟨v, hv, rfl⟩ := List.mem_map.1 he
    have hv' : v = Text.quote ∨ v = Text.space := by simpa [endsAt] using hstop
    rcases hv' with rfl | rfl
    · exact hquote hv
    · exact hspace hv

/-- Units on their own, without a quote among them, make the tokens of the pieces between spaces. -/
theorem derives_map_single {t : Text} (h : Text.quote ∉ t) :
    Derives (t.map single) ((t.splitOn Text.space).filterMap ofPiece?) := by
  induction hn : t.length using Nat.strong_induction_on generalizing t with
  | _ n ih =>
    by_cases hspace : Text.space ∈ t
    · obtain ⟨piece, rest, rfl, hpiece⟩ := List.eq_append_cons_of_mem hspace
      rw [List.mem_append, List.mem_cons, not_or, not_or] at h
      have hlt : rest.length < n := by
        rw [← hn, List.length_append, List.length_cons]
        omega
      have hrest := ih rest.length hlt h.2.2 rfl
      have hd := Derives.of_piece hpiece h.1 (.space hrest) (by simp [endsAt])
      rw [Text.splitOn_append_cons hpiece, List.map_append]
      cases piece <;> exact hd
    · have hd := Derives.of_piece hspace h .nil (by simp)
      rw [List.append_nil, List.append_nil] at hd
      rw [Text.splitOn_of_notMem hspace]
      cases t <;> exact hd

theorem Derives.eq_space_of_nil {es : List Element} (h : Derives es []) :
    ∀ e ∈ es, e = single Text.space := by
  generalize htokens : ([] : List Token) = tokens at h
  induction h with
  | nil => simp
  | space _ ih => exact List.forall_mem_cons.2 ⟨rfl, ih htokens⟩
  | quoted _ _ _ => cases htokens
  | bare _ _ _ _ => cases htokens

end Token

open Element Token

/-- A text without quotes, with at most one percent sign and without a doubled caret or backslash,
is split at its spaces: its tokens are the pieces between spaces that are not empty, whatever the
lookup and whether or not quotes are preserved. Only a text of spaces is rejected, at its start. -/
theorem tokenize_eq_splitOn {text : Text} (hquote : Text.quote ∉ text)
    (hpercent : text.count Text.percent ≤ 1) (hcaret : ¬[Text.caret, Text.caret] <:+: text)
    (hbackslash : ¬[Text.backslash, Text.backslash] <:+: text) (lookup : Lookup)
    (preserveQuotes : Bool) :
    ((text = [] ∨ ∃ u ∈ text, u ≠ Text.space) →
      tokenize lookup preserveQuotes text =
        .ok ((text.splitOn Text.space).filter (· ≠ []))) ∧
    ((text ≠ [] ∧ ∀ u ∈ text, u = Text.space) →
      tokenize lookup preserveQuotes text = .error ⟨text, 0⟩) := by
  constructor
  · intro hne
    have hd : Derives text.elements ((text.splitOn Text.space).filterMap ofPiece?) := by
      rw [elements_of_plain hquote hpercent hcaret hbackslash]
      exact derives_map_single hquote
    refine tokenize_eq_ok_iff.2 ⟨_, hd, hne.imp_right ?_, (map_value_pieces _ _ _).symm⟩
    rintro ⟨u, hu, hspace⟩ hnil
    rw [hnil, elements_of_plain hquote hpercent hcaret hbackslash] at hd
    have hsingle := hd.eq_space_of_nil _ (List.mem_map_of_mem hu)
    exact hspace (Element.single.inj hsingle)
  · rintro ⟨hne, hspaces⟩
    cases h : tokenize lookup preserveQuotes text with
    | ok values =>
      have hiff := exists_tokenize_eq_ok_iff.1 ⟨values, h⟩
      obtain ⟨u, hu, hspace⟩ := hiff.2.resolve_left hne
      exact absurd (hspaces u hu) hspace
    | error rejection =>
      rcases rejection_cases h with ⟨n, -, rfl⟩ | ⟨start, n, body, htext, -⟩
      · rfl
      · exact absurd (htext ▸ by simp) hquote

/-- The text ` a^\  %b^ ` ends a word with each of the units that could start something special, and
two spaces alone are rejected. -/
theorem tokenize_splits_lone_units :
    tokenize Lookup.none true
        [Text.space, 0x61, Text.caret, Text.backslash, Text.space, Text.space, Text.percent, 0x62,
          Text.caret, Text.space] =
      .ok [[0x61, Text.caret, Text.backslash], [Text.percent, 0x62, Text.caret]] ∧
    tokenize Lookup.none false [Text.space, Text.space] =
      .error ⟨[Text.space, Text.space], 0⟩ :=
  ⟨(tokenize_eq_splitOn (by decide) (by decide) (by decide) (by decide) Lookup.none true).1
      (.inr ⟨0x61, by decide, by decide⟩),
    (tokenize_eq_splitOn (by decide) (by decide) (by decide) (by decide) Lookup.none false).2
      ⟨by decide, by simp⟩⟩

end CommandText
