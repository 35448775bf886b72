import CommandText.Proofs.Terms

/-!
# Where a text is rejected

The text before the offset of a rejection is accepted, and its tokens are those that were found
before the rejection. A percent sign looks ahead as far as the text goes, so this is not plain: it
holds because cutting a text off behind an element, a run or a token never changes what was taken
off before the cut. What follows the offset is a quote, or the text has no token at all.
-/

namespace CommandText

namespace Text

theorem afterSpaces_of_append {a b c : Text} (h : afterSpaces (a ++ c) = b ++ c) :
    afterSpaces a = b := by
  induction a with
  | nil =>
    have hl := (afterSpaces_suffix c).length_le
    rw [List.nil_append] at h
    rw [h, List.length_append] at hl
    have hb : b = [] := List.length_eq_zero_iff.1 (by omega)
    rw [hb]
    rfl
  | cons u a ih =>
    by_cases hu : u = space
    · simp only [afterSpaces, List.cons_append, hu, List.dropWhile_cons, beq_self_eq_true,
        if_true] at h ih ⊢
      exact ih h
    · simp only [afterSpaces, List.cons_append, List.dropWhile_cons, beq_iff_eq, hu,
        if_false] at h ⊢
      exact List.append_cancel_right h

theorem exists_eq_replicate_append (t : Text) :
    ∃ n, t = List.replicate n space ++ afterSpaces t := by
  induction t with
  | nil => exact ⟨0, rfl⟩
  | cons u t ih =>
    by_cases hu : u = space
    · obtain ⟨n, hn⟩ := ih
      refine ⟨n + 1, ?_⟩
      simpa [afterSpaces, hu, List.replicate_succ] using hn
    · exact ⟨0, by simp [afterSpaces, hu]⟩

end Text

namespace Element

theorem run_of_append {units : List UInt16} {c : Text} {t : Text} :
    ∀ {a b : Text}, t = a ++ c → (run (endsAt units) t).2 = b ++ c →
      run (endsAt units) a = ((run (endsAt units) t).1, b) := by
  induction t using induction_on with
  | nil =>
    intro a b ht hr
    obtain ⟨rfl, rfl⟩ := List.append_eq_nil_iff.1 ht.symm
    obtain rfl : b = [] := by simpa [run_nil] using hr
    rw [run_nil]
  | next t e rest hn ih =>
    intro a b ht hr
    by_cases he : e.endsAt units
    · rw [run_of_stops hn he] at hr ⊢
      obtain rfl := List.append_cancel_right (ht.symm.trans hr)
      cases a with
      | nil => exact run_nil _
      | cons u a =>
        obtain ⟨v, -, rfl⟩ : ∃ v ∈ units, e = single v := by simpa [endsAt] using he
        obtain ⟨hw, -⟩ := next?_eq_some_iff.1 hn
        obtain ⟨rfl, rfl⟩ : u = v ∧ a ++ c = rest := by
          simpa [written] using ht.symm.trans hw
        exact run_of_stops (next?_of_append (ht ▸ hn)) he
    · rw [run_of_not_stops hn he] at hr ⊢
      have hs : c <:+ rest := (List.suffix_append b c).trans (hr ▸ run_suffix _ rest)
      obtain ⟨x, rfl⟩ := hs
      rw [run_of_not_stops (next?_of_append (ht ▸ hn)) he, ih rfl hr]

end Element

namespace Token

open Element

theorem next?_of_append {a b c : Text} {token : Token}
    (h : next? (a ++ c) = some (token, b ++ c)) : next? a = some (token, b) := by
  rcases next?_cases h with ⟨body, last, hb, hr, rfl, hl⟩ | ⟨e, body, hb, hq, rfl, hl⟩
  · obtain ⟨x, rfl⟩ : c <:+ last :=
      (List.suffix_append b c).trans (hl ▸ Text.afterSpaces_suffix last)
    rw [← List.cons_append] at hr
    obtain ⟨y, rfl⟩ : c <:+ body :=
      (List.suffix_append (Text.quote :: x) c).trans (hr ▸ run_suffix _ body)
    have hrun := run_of_append rfl hr
    have hy := next?_of_quoted (Text.afterSpaces_of_append (b := Text.quote :: y) hb)
      (congrArg Prod.snd hrun)
    rw [hy, hrun, Text.afterSpaces_of_append hl.symm]
  · obtain ⟨x, hx⟩ : c <:+ (run endsBare body).2 :=
      (List.suffix_append b c).trans (hl ▸ Text.afterSpaces_suffix _)
    obtain ⟨y, rfl⟩ : c <:+ body := (List.suffix_append x c).trans (hx ▸ run_suffix _ body)
    obtain ⟨hw, -⟩ := Element.next?_eq_some_iff.1 hb
    rw [← List.append_assoc] at hw
    have hrun := run_of_append rfl hx.symm
    have ha := Text.afterSpaces_of_append hw
    rw [hw, ← ha] at hb
    have hy := next?_of_bare (Element.next?_of_append hb) hq
    rw [hy, hrun, Text.afterSpaces_of_append (hx ▸ hl.symm)]

/-- The text before the place where the tokens end has the same tokens. -/
theorem scan_of_append {c t : Text} :
    ∀ {a : Text}, t = a ++ c → (scan t).2 = c → scan a = ((scan t).1, []) := by
  induction t using induction_on with
  | stop t h =>
    intro a ht hc
    rw [scan_of_none h] at hc ⊢
    obtain rfl : t = c := hc
    obtain rfl : a = [] := by simpa using ht
    exact scan_of_none rfl
  | next t token rest h ih =>
    intro a ht hc
    rw [scan_of_some h] at hc ⊢
    obtain ⟨b, rfl⟩ : c <:+ rest := hc ▸ scan_suffix rest
    rw [scan_of_some (next?_of_append (ht ▸ h)), ih rfl hc]

theorem exists_scan_eq_replicate_append (t : Text) :
    ∃ n tail, (scan t).2 = List.replicate n Text.space ++ tail ∧
      (tail = [] ∨ tail.head? = some Text.quote) ∧
      (scan t = ([], t) ∨ n = 0 ∧ tail = (scan t).2) := by
  obtain ⟨n, hn⟩ := Text.exists_eq_replicate_append (scan t).2
  refine ⟨n, _, hn, ?_, ?_⟩
  · rcases next?_eq_none_iff.1 (next?_scan t) with h | ⟨body, h, -⟩
    · exact .inl h
    · exact .inr (by rw [h]; rfl)
  · rcases scan_eq_or_head?_ne_space t with h | h
    · exact .inl h
    · have hs := Text.afterSpaces_eq_self h
      rw [hs] at hn
      have hl := congrArg List.length hn
      rw [List.length_append, List.length_replicate] at hl
      exact .inr ⟨by omega, hs⟩

end Token

open Grammar in
/-- A rejected text is cut at the offset of its rejection into a text that is accepted with the
tokens found so far, and a text that starts with a quote or, if there was no token, with spaces
before a quote or the end. -/
theorem accepted_before_rejection {lookup : Lookup} {preserveQuotes : Bool} {text : Text}
    {rejection : Rejection} (h : tokenize lookup preserveQuotes text = .error rejection) :
    ∃ offset : Nat, rejection = ⟨text, offset⟩ ∧ offset < text.length ∧
      (∃ tokens rest,
        (terms (special lookup) preserveQuotes).parse (Cursor.ofText text) =
          .success tokens rest ∧ rest.start = offset ∧
        tokenize lookup preserveQuotes (text.take offset) = .ok tokens) ∧
      (∃ n tail, text.drop offset = List.replicate n Text.space ++ tail ∧
        (tail = [] ∨ tail.head? = some Text.quote) ∧ (n ≠ 0 ∨ tail = [] → offset = 0)) ∧
      (0 < offset → text[offset]? = some Text.quote) := by
  rw [tokenize_eq_scan] at h
  split_ifs at h with hr
  obtain rfl := Except.error.inj h
  obtain ⟨before, hb⟩ := Token.scan_suffix text
  obtain ⟨rest, hp, -, hs⟩ := parse_terms lookup preserveQuotes text
  obtain ⟨n, tail, ht, hq, hn⟩ := Token.exists_scan_eq_replicate_append text
  have hpos := List.length_pos_iff.2 hr
  have hlen := congrArg List.length hb
  rw [List.length_append] at hlen
  have hoff : text.length - (Token.scan text).2.length = before.length := by omega
  have htake : text.take before.length = before := by
    rw [← hb, List.take_left]
  have hdrop : text.drop before.length = (Token.scan text).2 := by
    have hd := @List.drop_left _ before (Token.scan text).2
    rwa [hb] at hd
  have hzero : Token.scan text = ([], text) → before.length = 0 := by
    intro hn
    rw [hn] at hlen
    dsimp only at hlen
    omega
  refine ⟨before.length, by rw [hoff], by omega, ⟨_, rest, hp, hs.trans hoff, ?_⟩,
    ⟨n, tail, hdrop.trans ht, hq, ?_⟩, ?_⟩
  · rw [htake, tokenize_eq_scan, Token.scan_of_append hb.symm rfl]
    rfl
  · intro hnt
    rcases hn with hn | ⟨rfl, rfl⟩
    · exact hzero hn
    · simp [hr] at hnt
  · intro hb0
    rcases hn with hn | ⟨rfl, rfl⟩
    · exact absurd (hzero hn) (Nat.ne_of_gt hb0)
    · rw [← List.head?_drop, hdrop]
      exact hq.resolve_left hr

/-- The text `%X% "b` is rejected at its quote, and the text `%X% ` before it is accepted. -/
theorem accepted_before_open_quote :
    tokenize Lookup.none true
        [Text.percent, 0x58, Text.percent, Text.space, Text.quote, 0x62] =
      .error ⟨[Text.percent, 0x58, Text.percent, Text.space, Text.quote, 0x62], 4⟩ ∧
    ∃ tokens, tokenize Lookup.none true
      [Text.percent, 0x58, Text.percent, Text.space] = .ok tokens := by
  have h : tokenize Lookup.none true
        [Text.percent, 0x58, Text.percent, Text.space, Text.quote, 0x62] =
      .error ⟨[Text.percent, 0x58, Text.percent, Text.space, Text.quote, 0x62], 4⟩ := rfl
  obtain ⟨offset, ho, -, ⟨tokens, -, -, -, ht⟩, -⟩ := accepted_before_rejection h
  obtain rfl : 4 = offset := Int.ofNat.inj (congrArg Rejection.offset ho)
  exact ⟨h, tokens, ht⟩

end CommandText
