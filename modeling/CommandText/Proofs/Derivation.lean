import CommandText.Proofs.Coherence
import CommandText.Proofs.Diagnosis
import Mathlib.Data.List.TakeWhile

/-!
# Tokens derived from elements

Once a text is taken apart into its elements, its tokens follow from a small grammar of rows of
elements: spaces, elements between two quotes, and longest rows of elements that are neither spaces
nor quotes. `Token.Derives` states the grammar, and `tokenize_eq_ok_iff` that the tokenizer accepts
what is derived, with these tokens. A text has a derivation exactly if it has an even number of
quotes on their own.
-/

namespace CommandText

namespace Element

theorem elements_replicate_append (n : Nat) (t : Text) :
    Text.elements (List.replicate n Text.space ++ t) =
      List.replicate n (single Text.space) ++ t.elements := by
  induction n with
  | zero => rfl
  | succ n ih =>
    rw [List.replicate_succ, List.cons_append, elements_cons_delimiter isDelimiter_space, ih]
    rfl

theorem flatMap_written_replicate (n : Nat) :
    (List.replicate n (single Text.space)).flatMap written = List.replicate n Text.space := by
  induction n with
  | zero => rfl
  | succ n ih =>
    rw [List.replicate_succ, List.flatMap_cons, ih]
    rfl

theorem exists_elements_eq_replicate_append (t : Text) :
    ∃ n, t.elements = List.replicate n (single Text.space) ++ t.afterSpaces.elements := by
  obtain ⟨n, hn⟩ := Text.exists_eq_replicate_append t
  refine ⟨n, ?_⟩
  rw [← elements_replicate_append, ← hn]

theorem exists_next?_of_elements {t : Text} {e : Element} {es : List Element}
    (h : t.elements = e :: es) : ∃ rest, next? t = some (e, rest) ∧ rest.elements = es := by
  cases hn : next? t with
  | none =>
    rw [next?_eq_none_iff.1 hn, elements_nil] at h
    cases h
  | some found =>
    rw [elements_of_next? hn, List.cons.injEq] at h
    exact ⟨found.2, by rw [← h.1], h.2⟩

theorem exists_cons_of_elements {t : Text} {u : UInt16} {es : List Element}
    (h : t.elements = single u :: es) : ∃ rest, t = u :: rest ∧ Text.elements rest = es := by
  obtain ⟨rest, hn, hrest⟩ := exists_next?_of_elements h
  exact ⟨rest, (next?_eq_some_iff.1 hn).1, hrest⟩

theorem exists_run_of_elements {stops : Element → Bool} {t : Text} {es es' : List Element}
    (h : t.elements = es ++ es') (hes : ∀ e ∈ es, ¬stops e) (hes' : ∀ e ∈ es'.head?, stops e) :
    ∃ rest, run stops t = (es, rest) ∧ rest.elements = es' := by
  induction es generalizing t with
  | nil =>
    refine ⟨t, ?_, h⟩
    cases hn : next? t with
    | none =>
      rw [next?_eq_none_iff.1 hn]
      exact run_nil stops
    | some found =>
      apply run_of_stops hn
      apply hes'
      rw [← List.nil_append es', ← h, elements_of_next? hn]
      rfl
  | cons e es ih =>
    obtain ⟨rest, hn, hrest⟩ := exists_next?_of_elements h
    obtain ⟨last, hrun, hlast⟩ := ih hrest fun e' he' => hes e' (List.mem_cons_of_mem e he')
    refine ⟨last, ?_, hlast⟩
    rw [run_of_not_stops hn (hes e List.mem_cons_self), hrun]

theorem forall_not_endsQuoted_iff {es : List Element} :
    (∀ e ∈ es, ¬endsQuoted e) ↔ single Text.quote ∉ es := by
  constructor
  · intro h hmem
    exact h _ hmem (by simp [endsAt])
  · intro h e he hends
    obtain rfl : e = single Text.quote := by simpa [endsAt] using hends
    exact h he

theorem quote_notMem_of_not_endsBare {es : List Element} (h : ∀ e ∈ es, ¬endsBare e) :
    single Text.quote ∉ es := by
  intro hmem
  exact h _ hmem (by simp [endsAt])

end Element

namespace Token

open Element

/-- A row of elements is a row of tokens with spaces before, between and behind them. -/
inductive Derives : List Element → List Token → Prop
  | nil : Derives [] []
  /-- A space where no token is open belongs to none. -/
  | space {es tokens} (h : Derives es tokens) : Derives (single Text.space :: es) tokens
  /-- A quote opens a token that the next quote closes. -/
  | quoted {parts es tokens} (hparts : ∀ e ∈ parts, ¬endsQuoted e) (h : Derives es tokens) :
      Derives (single Text.quote :: (parts ++ single Text.quote :: es)) (quoted parts :: tokens)
  /-- A bare token goes as far as it can. -/
  | bare {first others es tokens} (hparts : ∀ e ∈ first :: others, ¬endsBare e)
      (hend : ∀ e ∈ es.head?, endsBare e) (h : Derives es tokens) :
      Derives (first :: (others ++ es)) (bare first others :: tokens)

namespace Derives

variable {es es' : List Element} {tokens tokens' : List Token}

theorem replicate_append (n : Nat) (h : Derives es tokens) :
    Derives (List.replicate n (single Text.space) ++ es) tokens := by
  induction n with
  | zero => exact h
  | succ n ih => exact .space ih

/-- Derivations are put together where the second one starts with a space or a quote, so that a bare
token at the end of the first one does not go on. -/
theorem append (h : Derives es tokens) (h' : Derives es' tokens')
    (hend : ∀ e ∈ es'.head?, endsBare e) : Derives (es ++ es') (tokens ++ tokens') := by
  induction h with
  | nil => exact h'
  | space _ ih => exact .space ih
  | @quoted parts es tokens hparts _ ih =>
    rw [List.cons_append, List.append_assoc]
    exact .quoted hparts ih
  | @bare first others es tokens hparts hend' _ ih =>
    rw [List.cons_append, List.append_assoc]
    refine .bare hparts ?_ ih
    cases es with
    | nil => exact hend
    | cons e es => exact hend'

theorem even_count (h : Derives es tokens) : Even (es.count (single Text.quote)) := by
  have hspace : single Text.space ≠ single Text.quote := by decide
  induction h with
  | nil => simp
  | space _ ih => rwa [List.count_cons_of_ne hspace]
  | @quoted parts es tokens hparts _ ih =>
    have hcount := List.count_eq_zero.2 (forall_not_endsQuoted_iff.1 hparts)
    rw [List.count_cons_self, List.count_append, hcount, List.count_cons_self, Nat.zero_add]
    simpa [Nat.even_add] using ih
  | @bare first others es tokens hparts _ _ ih =>
    have hcount := List.count_eq_zero.2 (quote_notMem_of_not_endsBare hparts)
    rwa [← List.cons_append, List.count_append, hcount, Nat.zero_add]

end Derives

section

variable {t rest : Text} {token : Token} {es behind : List Element} {tokens : List Token}

theorem Derives.of_next? (h : next? t = some (token, rest)) (hrest : rest.elements = es ++ behind)
    (hes : Derives es tokens) :
    ∃ es', t.elements = es' ++ behind ∧ Derives es' (token :: tokens) := by
  obtain ⟨m, hm⟩ := exists_elements_eq_replicate_append t
  rcases next?_cases h with ⟨body, last, hb, hr, rfl, rfl⟩ | ⟨e, body, hb, hq, rfl, rfl⟩
  · obtain ⟨n, hn⟩ := exists_elements_eq_replicate_append last
    have hparts : ∀ e ∈ (run endsQuoted body).1, ¬endsQuoted e := by
      intro e he
      exact not_stops_of_mem_run he
    refine ⟨_, ?_, (Derives.quoted hparts (hes.replicate_append n)).replicate_append m⟩
    rw [hm, hb, elements_cons_delimiter isDelimiter_quote, elements_eq_run_append endsQuoted body,
      hr, elements_cons_delimiter isDelimiter_quote, hn, hrest]
    simp
  · obtain ⟨n, hn⟩ := exists_elements_eq_replicate_append (run endsBare body).2
    have hparts : ∀ e' ∈ e :: (run endsBare body).1, ¬endsBare e' := by
      intro e' he
      rcases List.mem_cons.1 he with rfl | he
      · exact not_endsBare_of_afterSpaces hb hq
      · exact not_stops_of_mem_run he
    have hend : ∀ e' ∈ (List.replicate n (single Text.space) ++ es).head?, endsBare e' := by
      -- What follows the token starts with a space, or as the text behind the run does.
      intro e' he
      rw [hrest, ← List.append_assoc] at hn
      have hhead : e' ∈ (run endsBare body).2.elements.head? := by
        rw [hn, List.head?_append, Option.mem_def.1 he]
        rfl
      obtain ⟨es', hes'⟩ := List.head?_eq_some_iff.1 hhead
      obtain ⟨last, hlast, -⟩ := exists_next?_of_elements hes'
      exact stops_of_next?_run hlast
    refine ⟨_, ?_, (Derives.bare hparts hend (hes.replicate_append n)).replicate_append m⟩
    rw [hm, elements_of_next? hb, elements_eq_run_append endsBare body, hn, hrest]
    simp

/-- The tokens of a text are derived from the elements before the place where they end. -/
theorem exists_derives_scan (t : Text) :
    ∃ es, t.elements = es ++ (scan t).2.elements ∧ Derives es (scan t).1 := by
  induction t using induction_on with
  | stop t h =>
    rw [scan_of_none h]
    exact ⟨[], rfl, .nil⟩
  | next t token rest h ih =>
    obtain ⟨es, hes, hd⟩ := ih
    rw [scan_of_some h]
    exact Derives.of_next? h hes hd

end

theorem Derives.scan_afterSpaces {es : List Element} {tokens : List Token} (h : Derives es tokens) :
    ∀ {t : Text}, t.elements = es → scan t.afterSpaces = (tokens, []) := by
  induction h with
  | nil =>
    intro t ht
    rw [eq_of_elements_eq (ht.trans elements_nil.symm)]
    exact scan_of_none rfl
  | space _ ih =>
    intro t ht
    obtain ⟨rest, rfl, hrest⟩ := exists_cons_of_elements ht
    rw [← ih hrest]
    exact congrArg scan (Text.afterSpaces_replicate_append 1 rest)
  | @quoted parts es tokens hparts _ ih =>
    intro t ht
    obtain ⟨body, rfl, hbody⟩ := exists_cons_of_elements ht
    obtain ⟨rest, hrun, hrest⟩ := exists_run_of_elements hbody hparts (by simp [endsAt])
    obtain ⟨last, rfl, hes⟩ := exists_cons_of_elements hrest
    have hspaces := Text.afterSpaces_eq_self (Text.head?_quote_ne_space body)
    have hnext := next?_of_quoted hspaces (congrArg Prod.snd hrun)
    rw [hrun] at hnext
    rw [hspaces, scan_of_some hnext, ih hes]
  | @bare first others es tokens hparts hend _ ih =>
    intro t ht
    obtain ⟨body, hn, hbody⟩ := exists_next?_of_elements ht
    obtain ⟨rest, hrun, hes⟩ := exists_run_of_elements hbody
      (fun e he => hparts e (List.mem_cons_of_mem first he)) hend
    have hfirst : ¬endsBare first := hparts first List.mem_cons_self
    have hspaces : t.afterSpaces = t := by
      apply Text.afterSpaces_eq_self
      intro hhead
      apply hfirst
      rw [(head?_eq_some_iff isDelimiter_space hn).1 hhead]
      simp [endsAt]
    have hquote : first ≠ single Text.quote := by
      rintro rfl
      exact hfirst (by simp [endsAt])
    have hnext := next?_of_bare (t := t) (by rw [hspaces, hn]) hquote
    rw [hrun] at hnext
    rw [hspaces, scan_of_some hnext, ih hes]

theorem Derives.scan_eq {t : Text} {tokens : List Token} (h : Derives t.elements tokens)
    (hne : t = [] ∨ tokens ≠ []) : scan t = (tokens, []) := by
  have hscan := h.scan_afterSpaces rfl
  rcases hne with rfl | hne
  · exact hscan
  · have hnext : next? t = next? t.afterSpaces := by
      rw [next?, next?, Text.afterSpaces_eq_self t.head?_afterSpaces_ne]
    cases hn : next? t.afterSpaces with
    | none =>
      rw [scan_of_none hn] at hscan
      exact absurd (congrArg Prod.fst hscan).symm hne
    | some found =>
      rw [scan_of_some (hnext.trans hn), ← scan_of_some hn]
      exact hscan

end Token

open Token Element

/-- A text is accepted exactly if tokens are derived from its elements and it is empty or has a
token. -/
theorem tokenize_eq_ok_iff {lookup : Lookup} {preserveQuotes : Bool} {text : Text}
    {values : List Text} :
    tokenize lookup preserveQuotes text = .ok values ↔
      ∃ tokens, Derives text.elements tokens ∧ (text = [] ∨ tokens ≠ []) ∧
        values = tokens.map (Token.value lookup preserveQuotes) := by
  rw [tokenize_eq_scan]
  constructor
  · intro h
    split_ifs at h with hr
    obtain ⟨es, hes, hd⟩ := exists_derives_scan text
    rw [hr, elements_nil, List.append_nil] at hes
    exact ⟨_, hes ▸ hd, (scan_rest_eq_nil_iff.1 hr).2, (Except.ok.inj h).symm⟩
  · rintro ⟨tokens, hd, hne, rfl⟩
    rw [hd.scan_eq hne, if_pos rfl]

/-- A text that is rejected, but does not consist of spaces, has a quote behind its tokens and
spaces that no later quote closes. -/
theorem exists_open_quote {lookup : Lookup} {preserveQuotes : Bool} {text : Text}
    {rejection : Rejection} (h : tokenize lookup preserveQuotes text = .error rejection)
    (hne : ∃ u ∈ text, u ≠ Text.space) :
    ∃ (start : Text) (n : Nat) (body : Text) (tokens : List Token),
      text = start ++ (List.replicate n Text.space ++ Text.quote :: body) ∧
      rejection = ⟨text, start.length⟩ ∧
      text.elements = start.elements ++
        (List.replicate n (single Text.space) ++ single Text.quote :: body.elements) ∧
      Derives start.elements tokens ∧ (start = [] ∨ tokens ≠ []) ∧
      single Text.quote ∉ body.elements := by
  rw [tokenize_eq_scan] at h
  split_ifs at h with hr
  obtain rfl := Except.error.inj h
  rcases scan_rest_cases hr with ⟨n, hn, -⟩ | ⟨n, body, hrest, hrun⟩
  · obtain ⟨u, hu, hspace⟩ := hne
    rw [hn] at hu
    exact absurd (List.eq_of_mem_replicate hu) hspace
  · obtain ⟨es, hes, hd⟩ := exists_derives_scan text
    obtain ⟨start, rest, htext, rfl, hrest', -⟩ := exists_append_of_elements hes
    obtain rfl := eq_of_elements_eq hrest'
    refine ⟨start, n, body, _, by rw [← hrest, ← htext], ?_, ?_, hd, ?_, ?_⟩
    · have hlength := congrArg List.length htext
      rw [List.length_append] at hlength
      congr 1
      omega
    · rw [hes, hrest, elements_replicate_append, elements_cons_delimiter isDelimiter_quote]
    · cases hnext : Token.next? text with
      | some found => exact .inr (by simp [scan_of_some hnext])
      | none =>
        rw [scan_of_none hnext] at htext
        exact .inl (List.append_left_eq_self.1 htext.symm)
    · rw [elements_eq_run_append endsQuoted body, hrun, elements_nil, List.append_nil]
      apply forall_not_endsQuoted_iff.1
      intro e he
      exact not_stops_of_mem_run he

/-- A text is accepted exactly if it has an even number of quotes on their own, and is empty or has
more than spaces. -/
theorem exists_tokenize_eq_ok_iff {lookup : Lookup} {preserveQuotes : Bool} {text : Text} :
    (∃ values, tokenize lookup preserveQuotes text = .ok values) ↔
      Even (text.elements.count (single Text.quote)) ∧
        (text = [] ∨ ∃ u ∈ text, u ≠ Text.space) := by
  constructor
  · rintro ⟨values, h⟩
    obtain ⟨tokens, hd, hne, -⟩ := tokenize_eq_ok_iff.1 h
    refine ⟨hd.even_count, hne.imp_right ?_⟩
    intro hne
    by_contra hspaces
    have hnil : text.afterSpaces = [] := by
      apply List.dropWhile_eq_nil_iff.2
      intro u hu
      by_contra hne
      exact hspaces ⟨u, hu, by simpa using hne⟩
    have hscan := hd.scan_afterSpaces rfl
    rw [hnil, scan_of_none rfl] at hscan
    exact hne (congrArg Prod.fst hscan).symm
  · rintro ⟨heven, hne⟩
    cases h : tokenize lookup preserveQuotes text with
    | ok values => exact ⟨values, rfl⟩
    | error rejection =>
      rcases hne with rfl | hne
      · cases h
      · obtain ⟨start, n, body, tokens, -, -, hes, hd, -, hbody⟩ := exists_open_quote h hne
        have hspaces : single Text.quote ∉ List.replicate n (single Text.space) := by
          intro hmem
          exact absurd (List.eq_of_mem_replicate hmem) (by decide)
        rw [hes, List.count_append, List.count_append, List.count_eq_zero.2 hspaces,
          List.count_cons_self, List.count_eq_zero.2 hbody, Nat.even_add] at heven
        exact absurd (heven.1 hd.even_count) (by decide)

end CommandText
