import CommandText.Proofs.Derivation
import Mathlib.Data.List.DropRight

/-!
# The advice given with a rejection

For a quote that is not closed the diagnostic advises to close the term or to escape the quote. The
text is then read again from its start, and what stood between quotes before is read as bare tokens,
or the other way round. Escaping the quote always leads to an accepted text. Closing the term does
unless a backslash at the end of the text takes the new quote for the second unit of a pair, which
is the case if the text ends with an odd number of backslashes.
-/

namespace CommandText

def Text.backslashesAtEnd (t : Text) : Nat := (t.rtakeWhile (· == Text.backslash)).length

namespace Text

theorem backslashesAtEnd_concat_backslash (t : Text) :
    backslashesAtEnd (t ++ [backslash]) = t.backslashesAtEnd + 1 := by
  unfold backslashesAtEnd
  rw [List.rtakeWhile_concat_pos _ _ _ (by simp), List.length_append]
  rfl

theorem backslashesAtEnd_concat_of_ne {u : UInt16} (t : Text) (h : u ≠ backslash) :
    backslashesAtEnd (t ++ [u]) = 0 := by
  unfold backslashesAtEnd
  rw [List.rtakeWhile_concat_neg _ _ _ (by simpa using h)]
  rfl

theorem take_append_replicate_append (start : Text) (n : Nat) (tail : Text) :
    (start ++ (List.replicate n space ++ tail)).take (start.length + n) =
      start ++ List.replicate n space := by
  rw [← List.append_assoc]
  exact List.take_left' (by simp)

theorem drop_append_replicate_append (start : Text) (n : Nat) (tail : Text) :
    (start ++ (List.replicate n space ++ tail)).drop (start.length + n) = tail := by
  rw [← List.append_assoc]
  exact List.drop_left' (by simp)

end Text

namespace Element

theorem Meets.getLast?_ne_backslash {es : List Element} {t : Text}
    (h : Meets es (Text.backslash :: t)) : es.getLast? ≠ some (single Text.backslash) := by
  intro hlast
  exact h.last _ _ hlast rfl (by decide)

/-- Backslashes at the end of a text are taken in pairs from the first one on, so that the last one
is on its own exactly if their number is odd. -/
theorem odd_backslashesAtEnd_iff {es : List Element} (h : Coherent es) :
    Odd (Text.backslashesAtEnd (es.flatMap written)) ↔
      es.getLast? = some (single Text.backslash) := by
  induction es using List.reverseRecOn with
  | nil => simp [Text.backslashesAtEnd]
  | append_singleton es e ih =>
    obtain ⟨hes, ⟨hfits, -⟩, hmeets⟩ := coherent_append_iff.1 h
    rw [List.flatMap_append, List.flatMap_singleton, List.getLast?_concat, Option.some.injEq]
    rw [List.flatMap_singleton] at hmeets
    cases e with
    | reference name =>
      rw [written, ← List.cons_append, ← List.append_assoc,
        Text.backslashesAtEnd_concat_of_ne _ (by decide)]
      simp
    | single u =>
      by_cases hu : u = Text.backslash
      · subst hu
        have heven := (ih hes).not.2 hmeets.getLast?_ne_backslash
        rw [written, Text.backslashesAtEnd_concat_backslash, Nat.odd_add_one]
        simp [heven]
      · rw [written, Text.backslashesAtEnd_concat_of_ne _ hu]
        simp [hu]
    | pair u v =>
      have hsplit : (pair u v).written = [u] ++ [v] := rfl
      rw [hsplit, ← List.append_assoc]
      by_cases hv : v = Text.backslash
      · subst hv
        obtain rfl : u = Text.backslash := by
          rcases isPair_iff.1 hfits with ⟨-, hv⟩ | ⟨hu, -⟩
          · exact absurd hv (by decide)
          · exact hu
        have heven := (ih hes).not.2 hmeets.getLast?_ne_backslash
        rw [Text.backslashesAtEnd_concat_backslash, Text.backslashesAtEnd_concat_backslash,
          Nat.odd_add_one, Nat.odd_add_one]
        simpa using heven
      · rw [Text.backslashesAtEnd_concat_of_ne _ hv]
        simp

theorem elements_concat_quote_of_even {t : Text} (h : Even t.backslashesAtEnd) :
    Text.elements (t ++ [Text.quote]) = t.elements ++ [single Text.quote] := by
  have hlast : t.elements.getLast? ≠ some (single Text.backslash) := by
    rwa [ne_eq, ← odd_backslashesAtEnd_iff (coherent_elements t), flatMap_written_elements,
      Nat.not_odd_iff_even]
  have hmeets : Meets t.elements [Text.quote] := by
    refine ⟨fun _ => by decide, ?_⟩
    rintro u v hu ⟨⟩ hpair
    rcases isPair_iff.1 hpair with ⟨-, hv⟩ | ⟨rfl, -⟩
    · exact absurd hv (by decide)
    · exact hlast hu
  rw [elements_append hmeets, elements_cons_delimiter isDelimiter_quote, elements_nil]

theorem count_quote_concat_quote_of_odd {t : Text} (h : Odd t.backslashesAtEnd) :
    (Text.elements (t ++ [Text.quote])).count (single Text.quote) =
      t.elements.count (single Text.quote) := by
  rw [← flatMap_written_elements t, odd_backslashesAtEnd_iff (coherent_elements t)] at h
  obtain ⟨es, hes⟩ := List.getLast?_eq_some_iff.1 h
  obtain ⟨a, b, rfl, rfl, hb, hmeets⟩ := exists_append_of_elements hes
  obtain ⟨rest, rfl, hrest⟩ := exists_cons_of_elements hb
  obtain rfl := eq_of_elements_eq (hrest.trans elements_nil.symm)
  have hmeets' : Meets a.elements [Text.backslash, Text.quote] :=
    ⟨fun _ => by decide, hmeets.last⟩
  have hpair := elements_written (e := pair Text.backslash Text.quote) rfl
  rw [written] at hpair
  rw [List.append_assoc, List.singleton_append, elements_append hmeets', hpair, hes,
    List.count_append, List.count_append]
  rfl

theorem Coherent.escape_quote {es es' : List Element}
    (h : Coherent (es ++ single Text.quote :: es')) :
    Coherent (es ++ pair Text.backslash Text.quote :: es') := by
  obtain ⟨hes, ⟨-, hes'⟩, hmeets⟩ := coherent_append_iff.1 h
  refine coherent_append_iff.2 ⟨hes, ⟨rfl, hes'⟩, ?_, ?_⟩
  · intro hp hmem
    rw [List.flatMap_cons, written, List.cons_append, List.mem_cons] at hmem
    exact hmeets.percent hp (hmem.resolve_left (by decide))
  · rintro u v hu ⟨⟩ hpair
    -- A caret makes no pair with a backslash, and a backslash would have taken the quote before.
    rcases isPair_iff.1 hpair with ⟨-, hv⟩ | ⟨rfl, -⟩
    · exact absurd hv (by decide)
    · exact hmeets.last _ _ hu rfl (by decide)

end Element

open Element Token

/-- A text with an odd number of quotes on their own is accepted if one of them is escaped. -/
theorem exists_tokenize_escaped {es es' : List Element}
    (h : Coherent (es ++ single Text.quote :: es'))
    (hodd : ¬Even ((es ++ single Text.quote :: es').count (single Text.quote))) (lookup : Lookup)
    (preserveQuotes : Bool) :
    ∃ tokens, tokenize lookup preserveQuotes
      ((es ++ pair Text.backslash Text.quote :: es').flatMap Element.written) = .ok tokens := by
  have hpair : pair Text.backslash Text.quote ≠ single Text.quote := by simp
  apply exists_tokenize_eq_ok_iff.2
  constructor
  · rw [elements_flatMap_written h.escape_quote, List.count_append, List.count_cons_of_ne hpair]
    rw [List.count_append, List.count_cons_self, ← Nat.add_assoc, Nat.even_add_one] at hodd
    exact not_not.1 hodd
  · refine .inr ⟨Text.backslash, ?_, by decide⟩
    simp [Element.written]

/-- A text that ends with an open term has one more token if the term is closed. -/
theorem tokenize_closed {text start body : Text} {n : Nat} {tokens : List Token}
    (hes : text.elements = start.elements ++
      (List.replicate n (single Text.space) ++ single Text.quote :: body.elements))
    (hd : Derives start.elements tokens) (hbody : single Text.quote ∉ body.elements)
    (heven : Even text.backslashesAtEnd) (lookup : Lookup) (preserveQuotes : Bool) :
    tokenize lookup preserveQuotes (text ++ [Text.quote]) =
      .ok (tokens.map (Token.value lookup preserveQuotes) ++
        [Grammar.requote preserveQuotes (body.elements.flatMap (Element.value lookup))]) := by
  have hparts := forall_not_endsQuoted_iff.2 hbody
  have hlast : Derives (List.replicate n (single Text.space) ++
      single Text.quote :: (body.elements ++ [single Text.quote])) [.quoted body.elements] :=
    (Derives.quoted hparts .nil).replicate_append n
  apply tokenize_eq_ok_iff.2
  refine ⟨tokens ++ [.quoted body.elements], ?_, .inr (by simp), ?_⟩
  · rw [elements_concat_quote_of_even heven, hes, List.append_assoc, List.append_assoc]
    apply hd.append hlast
    cases n <;> simp [List.replicate_succ, endsAt]
  · rw [List.map_append]
    rfl

/-- Both pieces of advice for a text that is rejected, but does not consist of spaces. The caret is
at the first unit behind the offset that is no space, a quote. With a backslash before this unit the
text is accepted. With a quote at its end it is accepted exactly if an even number of backslashes
stands before it, and then with the tokens before the offset and one more, which is quoted. -/
theorem repairs_of_rejection {lookup : Lookup} {preserveQuotes : Bool} {text : Text}
    {rejection : Rejection} (h : tokenize lookup preserveQuotes text = .error rejection)
    (hne : ∃ u ∈ text, u ≠ Text.space) :
    ∃ offset p : Nat, rejection = ⟨text, offset⟩ ∧ offset ≤ p ∧
      (∀ i, offset ≤ i → i < p → text[i]? = some Text.space) ∧ text[p]? = some Text.quote ∧
      Diagnostic.find text offset = ⟨p, .unterminatedQuote⟩ ∧
      ∀ (lookup : Lookup) (preserveQuotes : Bool),
        (∃ tokens, tokenize lookup preserveQuotes
          (text.take p ++ Text.backslash :: text.drop p) = .ok tokens) ∧
        ((∃ tokens, tokenize lookup preserveQuotes (text ++ [Text.quote]) = .ok tokens) ↔
          Even text.backslashesAtEnd) ∧
        (Even text.backslashesAtEnd →
          ∃ tokens, tokenize lookup preserveQuotes (text.take offset) = .ok tokens ∧
            tokenize lookup preserveQuotes (text ++ [Text.quote]) =
              .ok (tokens ++ [Grammar.requote preserveQuotes
                ((Text.elements (text.drop (p + 1))).flatMap (Element.value lookup))])) := by
  have hodd : ¬Even (text.elements.count (single Text.quote)) := by
    intro heven
    obtain ⟨values, hok⟩ : ∃ values, tokenize lookup preserveQuotes text = .ok values :=
      exists_tokenize_eq_ok_iff.2 ⟨heven, .inr hne⟩
    rw [h] at hok
    cases hok
  obtain ⟨start, n, body, tokens, htext, rfl, hes, hd, hstart, hbody⟩ := exists_open_quote h hne
  have htake : text.take (start.length + n) = start ++ List.replicate n Text.space := by
    rw [htext, Text.take_append_replicate_append]
  have hdrop : text.drop (start.length + n) = Text.quote :: body := by
    rw [htext, Text.drop_append_replicate_append]
  have hbehind : text.drop (start.length + n + 1) = body := by
    rw [← List.drop_drop, hdrop]
    rfl
  refine ⟨start.length, start.length + n, rfl, Nat.le_add_right _ _, ?_, ?_, ?_, ?_⟩
  · intro i hle hlt
    rw [htext]
    exact Text.getElem?_space_before_quote start n body hle hlt
  · rw [htext]
    exact Text.getElem?_quote_behind_spaces start n body
  · rw [htext]
    exact Diagnostic.find_of_quote start n body
  · intro lookup preserveQuotes
    have hclosed := fun heven => tokenize_closed hes hd hbody heven lookup preserveQuotes
    refine ⟨?_, ⟨?_, fun heven => ⟨_, hclosed heven⟩⟩, ?_⟩
    · have hrow := coherent_elements text
      rw [hes, ← List.append_assoc] at hrow hodd
      have hescaped := exists_tokenize_escaped hrow hodd lookup preserveQuotes
      rw [List.flatMap_append, List.flatMap_append, flatMap_written_elements,
        flatMap_written_replicate, List.flatMap_cons, flatMap_written_elements] at hescaped
      rw [htake, hdrop]
      exact hescaped
    · intro hok
      obtain ⟨heven, -⟩ := exists_tokenize_eq_ok_iff.1 hok
      by_contra hback
      rw [count_quote_concat_quote_of_odd (Nat.not_even_iff_odd.1 hback)] at heven
      exact hodd heven
    · intro heven
      have hstart' : text.take start.length = start := by rw [htext, List.take_left]
      rw [hstart', hbehind]
      exact ⟨_, tokenize_eq_ok_iff.2 ⟨tokens, hd, hstart, rfl⟩, hclosed heven⟩

/-- The text `x"a\\` is accepted as `x\"a\\`, and closed as `x"a\\"` it has the tokens `x` and
`"a\"`. -/
theorem repairs_behind_backslashes :
    tokenize Lookup.none true [0x78, Text.quote, 0x61, Text.backslash, Text.backslash] =
      .error ⟨[0x78, Text.quote, 0x61, Text.backslash, Text.backslash], 1⟩ ∧
    (∃ tokens, tokenize Lookup.none true
      [0x78, Text.backslash, Text.quote, 0x61, Text.backslash, Text.backslash] = .ok tokens) ∧
    tokenize Lookup.none true
        [0x78, Text.quote, 0x61, Text.backslash, Text.backslash, Text.quote] =
      .ok [[0x78], [Text.quote, 0x61, Text.backslash, Text.quote]] := by
  have h : tokenize Lookup.none true [0x78, Text.quote, 0x61, Text.backslash, Text.backslash] =
      .error ⟨[0x78, Text.quote, 0x61, Text.backslash, Text.backslash], 1⟩ := rfl
  obtain ⟨offset, p, ho, -, -, -, hfind, hrepairs⟩ :=
    repairs_of_rejection h ⟨0x78, by simp, by decide⟩
  obtain rfl : 1 = offset := Int.ofNat.inj (congrArg Rejection.offset ho)
  obtain rfl : 1 = p := Int.ofNat.inj (congrArg Diagnostic.Finding.pos hfind)
  obtain ⟨hescaped, -, hclosed⟩ := hrepairs Lookup.none true
  obtain ⟨tokens, hstart, htokens⟩ := hclosed (by decide)
  obtain rfl : [[0x78]] = tokens := Except.ok.inj hstart
  have helements : Text.elements [0x61, Text.backslash, Text.backslash] =
      [single 0x61, pair Text.backslash Text.backslash] := by
    have hnext : Element.next? [0x61, Text.backslash, Text.backslash] =
        some (single 0x61, [Text.backslash, Text.backslash]) := rfl
    have hlast : Element.next? [Text.backslash, Text.backslash] =
        some (pair Text.backslash Text.backslash, []) := rfl
    rw [elements_of_next? hnext, elements_of_next? hlast, elements_nil]
  refine ⟨h, hescaped, htokens.trans ?_⟩
  exact congrArg (fun es => Except.ok [[0x78], Grammar.requote true
    (es.flatMap (Element.value Lookup.none))]) helements

end CommandText
