import CommandText.Proofs.Token
import CommandText.Command.Tokens

/-!
# What the rules of the grammar find

Each rule of the grammar, read on a list of units, finds what the elements of the list ask for:
`special` an element of more than one unit, a piece a row of single units, a term a token with its
values put in. The rules behind `special` are treated for any parser that finds the same elements.
The last statement, `tokenize_eq_scan`, is the tokenizer in these terms.
-/

namespace CommandText

namespace Grammar

open Element

theorem read_percent_repeated (t : Text) :
    (percent.read (Peg.repeated (exceptUnit .any percent).read t).2).map
        (fun (_, rest) => ((Peg.repeated (exceptUnit .any percent).read t).1, rest)) =
      Text.cut? Text.percent t := by
  induction t with
  | nil => rw [Peg.repeated_of_none rfl]; rfl
  | cons u t ih =>
    by_cases hu : u = Text.percent
    · have hs : (exceptUnit .any percent).read (u :: t) = none := by
        simp [exceptUnit, Peg.read, percent, hu]
      rw [Peg.repeated_of_none hs, percent, Peg.read_unit_cons, if_pos hu, Text.cut?, if_pos hu]
      rfl
    · have hs : (exceptUnit .any percent).read (u :: t) = some (u, t) := by
        simp [exceptUnit, Peg.read, percent, hu]
      rw [Peg.repeated_of_some hs (by simp), Text.cut?, if_neg hu, ← ih, Option.map_map]
      rfl

theorem read_name (t : Text) :
    name.read t = (percent.read t).bind fun (_, rest) => Text.cut? Text.percent rest := by
  rw [name, Peg.read_between]
  cases percent.read t with
  | none => rfl
  | some found => exact read_percent_repeated found.2

theorem read_escapePair (a b u v : UInt16) (t : Text) :
    (escapePair a b).read (u :: v :: t) = if u = a ∧ v = b then some ([v], t) else none := by
  simp only [escapePair, Peg.read]
  by_cases hu : u = a <;> by_cases hv : v = b <;> simp [hu, hv]

theorem read_escapePair_singleton (a b u : UInt16) : (escapePair a b).read [u] = none := by
  simp only [escapePair, Peg.read]
  by_cases hu : u = a <;> simp [hu]

theorem or_ite {α : Type} (p q : Prop) [Decidable p] [Decidable q] (x : α) :
    (if p then some x else none).or (if q then some x else none) =
      if p ∨ q then some x else none := by
  by_cases hp : p <;> simp [hp]

theorem read_escape (u v : UInt16) (t : Text) :
    escape.read (u :: v :: t) =
      if u = Text.percent ∧ v = Text.percent ∨ isPair u v then some ([v], t) else none := by
  simp only [escape, Peg.read_alt, read_escapePair, or_ite, isPair_iff, and_or_left, or_assoc]

theorem read_escape_singleton (u : UInt16) : escape.read [u] = none := by
  simp only [escape, Peg.read_alt, read_escapePair_singleton, Option.or_none]

/-- A parser finds the elements of more than one unit, with their values, and nothing else. -/
def FindsSpecial (lookup : Lookup) (p : Peg Text) : Prop :=
  ∀ t, p.read t = (next? t).bind fun (e, rest) =>
    if e.single?.isSome then none else some (e.value lookup, rest)

theorem special_findsSpecial (lookup : Lookup) : FindsSpecial lookup (special lookup) := by
  intro t
  rw [special, Peg.read_alt, reference, Peg.read, read_name]
  cases t with
  | nil => rfl
  | cons u t =>
    rw [percent, Peg.read_unit_cons]
    by_cases hu : u = Text.percent
    · subst hu
      rw [if_pos rfl, Option.bind_some]
      cases hc : Text.cut? Text.percent t with
      | some found => simp [next?, hc, single?, value, resolve, written]
      | none =>
        -- No percent sign follows, so the pair of percent signs is out of the question too.
        have hn := Text.cut?_eq_none_iff.1 hc
        have he : escape.read (Text.percent :: t) = none := by
          cases t with
          | nil => exact read_escape_singleton _
          | cons v t =>
            have hv : ¬v = Text.percent := by
              rintro rfl
              exact hn List.mem_cons_self
            have hp : ¬isPair Text.percent v := by
              intro h
              exact ne_percent_of_isPair h rfl
            rw [read_escape, if_neg (by simp [hv, hp])]
        simp [next?, hc, single?, he]
    · rw [if_neg hu, Option.bind_none]
      cases t with
      | nil => simp [next?, hu, single?, read_escape_singleton]
      | cons v t => by_cases hp : isPair u v <;> simp [next?, hu, single?, read_escape, hp, value]

/-- A parser finds the elements of one unit that do not end at given units, and nothing else. -/
def FindsSingle (units : List UInt16) (p : Peg UInt16) : Prop :=
  ∀ t, p.read t = (next? t).bind fun (e, rest) =>
    if e.endsAt units then none else e.single?.map fun u => (u, rest)

theorem plainUnit_findsSingle {lookup : Lookup} {special : Peg Text}
    (h : FindsSpecial lookup special) : FindsSingle [] (plainUnit special) := by
  intro t
  rw [plainUnit, Peg.read_except, h t]
  cases ht : next? t with
  | none =>
    rw [next?_eq_none_iff.1 ht]
    rfl
  | some found =>
    obtain ⟨e, rest⟩ := found
    obtain ⟨rfl, -⟩ := next?_eq_some_iff.1 ht
    cases e with
    | reference name => simp [single?]
    | pair u v => simp [single?]
    | single u => simp [single?, endsAt, Peg.read, written]

theorem exceptUnit_findsSingle {units : List UInt16} {p : Peg UInt16} {x : UInt16}
    (hx : IsDelimiter x) (h : FindsSingle units p) :
    FindsSingle (x :: units) (exceptUnit p (.unit x)) := by
  intro t
  rw [exceptUnit, Peg.read_except, h t]
  cases ht : next? t with
  | none => simp
  | some found =>
    obtain ⟨e, rest⟩ := found
    have hh := head?_eq_some_iff hx ht
    obtain ⟨u, t, rfl⟩ : ∃ u t', t = u :: t' := List.exists_cons_of_length_pos
      (Nat.zero_lt_of_lt (length_lt_of_next? ht))
    rw [Peg.read_unit_cons]
    by_cases hu : u = x
    · have he : e = single x := hh.1 (by rw [hu]; rfl)
      simp [hu, he, endsAt]
    · have he : e ≠ single x := by
        intro he
        exact hu (by simpa using hh.2 he)
      simp [hu, he, endsAt]

section Pieces

variable {lookup : Lookup} {special : Peg Text} {units : List UInt16} {p : Peg UInt16}
  {t rest : Text} {e : Element}

theorem FindsSingle.read_of_ends (hp : FindsSingle units p) (h : next? t = some (e, rest))
    (he : e.endsAt units) : p.read t = none := by
  simp [hp t, h, he]

theorem FindsSingle.read_of_single {u : UInt16} (hp : FindsSingle units p)
    (h : next? t = some (single u, rest)) (he : ¬(single u).endsAt units) :
    p.read t = some (u, rest) := by
  simp [hp t, h, he, single?]

theorem FindsSingle.read_of_not_single (hp : FindsSingle units p) (h : next? t = some (e, rest))
    (he : e.single? = none) : p.read t = none := by
  simp [hp t, h, he]

theorem run_eq_repeated_append (hp : FindsSingle units p) (t : Text) :
    run (endsAt units) t =
      ((Peg.repeated p.read t).1.map single ++
          (run (endsAt units) (Peg.repeated p.read t).2).1,
        (run (endsAt units) (Peg.repeated p.read t).2).2) := by
  induction t using induction_on with
  | nil =>
    rw [Peg.repeated_of_none (hp [])]
    rfl
  | next t e rest ht ih =>
    by_cases he : e.endsAt units
    · rw [Peg.repeated_of_none (hp.read_of_ends ht he)]
      rfl
    · cases e with
      | reference name =>
        rw [Peg.repeated_of_none (hp.read_of_not_single ht rfl)]
        rfl
      | pair u v =>
        rw [Peg.repeated_of_none (hp.read_of_not_single ht rfl)]
        rfl
      | single u =>
        rw [Peg.repeated_of_some (hp.read_of_single ht he) (length_lt_of_next? ht),
          run_of_not_stops ht he, ih]
        rfl

/-! A piece is a row of single units or one longer element. -/

theorem read_piece_nil (hs : FindsSpecial lookup special) (hp : FindsSingle units p) :
    (Peg.alt (.many1 p) special).read [] = none := by
  rw [Peg.read_alt, Peg.read_many1_of_none (hp []), hs []]
  rfl

theorem read_piece_of_ends (hs : FindsSpecial lookup special) (hp : FindsSingle units p)
    (h : next? t = some (e, rest)) (he : e.endsAt units) :
    (Peg.alt (.many1 p) special).read t = none := by
  obtain ⟨u, -, rfl⟩ : ∃ u ∈ units, e = single u := by simpa [endsAt] using he
  rw [Peg.read_alt, Peg.read_many1_of_none (hp.read_of_ends h he), hs t, h]
  rfl

theorem read_piece_of_single {u : UInt16} (hp : FindsSingle units p)
    (h : next? t = some (single u, rest)) (he : ¬(single u).endsAt units) :
    (Peg.alt (.many1 p) special).read t =
      some (u :: (Peg.repeated p.read rest).1, (Peg.repeated p.read rest).2) := by
  have hu := hp.read_of_single h he
  have hlt := length_lt_of_next? h
  rw [Peg.read_alt, Peg.read_many1_of_some hu hlt, Peg.repeated_of_some hu hlt]
  rfl

theorem read_piece_of_not_single (hs : FindsSpecial lookup special) (hp : FindsSingle units p)
    (h : next? t = some (e, rest)) (he : e.single? = none) :
    (Peg.alt (.many1 p) special).read t = some (e.value lookup, rest) := by
  rw [Peg.read_alt, Peg.read_many1_of_none (hp.read_of_not_single h he), hs t, h]
  simp [he]

/-- The pieces of a term have together the values of a run of elements. A piece may take many
elements at once, so the induction is on the length of the text. -/
theorem repeated_piece (hs : FindsSpecial lookup special) (hp : FindsSingle units p) (t : Text) :
    (Peg.repeated (Peg.alt (.many1 p) special).read t).1.flatten =
        (run (endsAt units) t).1.flatMap (value lookup) ∧
      (Peg.repeated (Peg.alt (.many1 p) special).read t).2 = (run (endsAt units) t).2 := by
  induction hn : t.length using Nat.strong_induction_on generalizing t with
  | _ n ih =>
    cases ht : next? t with
    | none =>
      rw [next?_eq_none_iff.1 ht, run_nil, Peg.repeated_of_none (read_piece_nil hs hp)]
      exact ⟨rfl, rfl⟩
    | some found =>
      obtain ⟨e, rest⟩ := found
      have hlt := length_lt_of_next? ht
      by_cases he : e.endsAt units
      · rw [run_of_stops ht he, Peg.repeated_of_none (read_piece_of_ends hs hp ht he)]
        exact ⟨rfl, rfl⟩
      · cases hu : e.single? with
        | none =>
          obtain ⟨hv, hr⟩ := ih rest.length (hn ▸ hlt) rest rfl
          rw [run_of_not_stops ht he,
            Peg.repeated_of_some (read_piece_of_not_single hs hp ht hu) hlt]
          exact ⟨by simp [hv], hr⟩
        | some u =>
          obtain rfl := eq_single_of_single? hu
          have hle := Peg.length_repeated_le p.read rest
          obtain ⟨hv, hr⟩ := ih (Peg.repeated p.read rest).2.length (by omega) _ rfl
          rw [run_of_not_stops ht he, run_eq_repeated_append hp rest,
            Peg.repeated_of_some (read_piece_of_single hp ht he) (by omega)]
          refine ⟨?_, hr⟩
          simp [hv, List.flatMap_append, List.flatMap_map, value]

theorem exists_read_piece (hs : FindsSpecial lookup special) (hp : FindsSingle units p)
    (h : next? t = some (e, rest)) (he : ¬e.endsAt units) :
    ∃ v last, (Peg.alt (.many1 p) special).read t = some (v, last) ∧ last.length < t.length := by
  have hlt := length_lt_of_next? h
  cases hu : e.single? with
  | none => exact ⟨_, _, read_piece_of_not_single hs hp h hu, hlt⟩
  | some u =>
    obtain rfl := eq_single_of_single? hu
    exact ⟨_, _, read_piece_of_single hp h he,
      Nat.lt_of_le_of_lt (Peg.length_repeated_le p.read rest) hlt⟩

end Pieces

section Terms

variable {lookup : Lookup} {special : Peg Text} {t rest : Text} {e : Element}

theorem unquotedUnit_findsSingle (hs : FindsSpecial lookup special) :
    FindsSingle [Text.quote, Text.space]
      (exceptUnit (exceptUnit (plainUnit special) space) quote) :=
  exceptUnit_findsSingle isDelimiter_quote
    (exceptUnit_findsSingle isDelimiter_space (plainUnit_findsSingle hs))

theorem quotedUnit_findsSingle (hs : FindsSpecial lookup special) :
    FindsSingle [Text.quote] (exceptUnit (plainUnit special) quote) :=
  exceptUnit_findsSingle isDelimiter_quote (plainUnit_findsSingle hs)

theorem read_unquotedTerm_of_none (h : (Peg.alt (unquotedPiece special) special).read t = none) :
    (unquotedTerm special).read t = none := by
  rw [unquotedTerm, Peg.joined, Peg.read, Peg.read_many1_of_none h]
  rfl

theorem read_unquotedTerm (hs : FindsSpecial lookup special)
    (h : next? t = some (e, rest)) (he : ¬endsBare e) :
    (unquotedTerm special).read t =
      some ((e :: (run endsBare rest).1).flatMap (value lookup), (run endsBare rest).2) := by
  obtain ⟨v, last, hr, hlt⟩ := exists_read_piece hs (unquotedUnit_findsSingle hs) h he
  obtain ⟨hv, hl⟩ := repeated_piece hs (unquotedUnit_findsSingle hs) t
  rw [run_of_not_stops h he] at hv hl
  rw [unquotedTerm, Peg.joined, Peg.read, unquotedPiece, Peg.read_many1_of_some hr hlt, ← hv, ← hl]
  rfl

theorem read_quotedBody (hs : FindsSpecial lookup special) (t : Text) :
    (quotedBody special).read (Text.quote :: t) =
      match (run endsQuoted t).2 with
      | [] => none
      | _ :: last => some ((run endsQuoted t).1.flatMap (value lookup), last) := by
  obtain ⟨hv, hl⟩ := repeated_piece hs (quotedUnit_findsSingle hs) t
  rw [quotedBody, Peg.read_between, quote, Peg.read_unit_cons, if_pos rfl, Option.bind_some]
  dsimp only
  rw [Peg.read_joined_many, quotedPiece, hv, hl]
  cases hr : (run endsQuoted t).2 with
  | nil => rfl
  | cons u last => simp [Peg.read_unit_cons, eq_quote_of_run hr]

theorem read_quotedBody_of_ne (special : Peg Text) (h : t.head? ≠ some Text.quote) :
    (quotedBody special).read t = none := by
  rw [quotedBody, Peg.read_between]
  cases t with
  | nil => rfl
  | cons u t =>
    have hu : ¬u = Text.quote := by simpa using h
    rw [quote, Peg.read_unit_cons, if_neg hu, Option.bind_none]

theorem repeated_space (t : Text) : (Peg.repeated space.read t).2 = t.afterSpaces := by
  induction t with
  | nil => rw [Peg.repeated_of_none rfl]; rfl
  | cons u t ih =>
    by_cases hu : u = Text.space
    · have hr : space.read (u :: t) = some (u, t) := by simp [space, Peg.read, hu]
      rw [Peg.repeated_of_some hr (by simp), ih]
      simp [Text.afterSpaces, hu]
    · have hr : space.read (u :: t) = none := by simp [space, Peg.read, hu]
      rw [Peg.repeated_of_none hr]
      simp [Text.afterSpaces, hu]

theorem read_many_space (t : Text) :
    (Peg.many space).read t = some ((Peg.repeated space.read t).1, t.afterSpaces) := by
  rw [← repeated_space t, Peg.read]

/-- A term finds the next token with its values put in. -/
theorem read_term (hs : FindsSpecial lookup special) (preserveQuotes : Bool) (t : Text) :
    (term special preserveQuotes).read t =
      (Token.next? t).map fun (token, last) => (token.value lookup preserveQuotes, last) := by
  have hu := unquotedUnit_findsSingle hs
  rw [term, Peg.read_between, read_many_space, Option.bind_some]
  dsimp only
  simp only [read_many_space, Option.map_some]
  rw [Peg.read_alt, quotedTerm, Peg.read, Token.next?]
  cases ht : next? t.afterSpaces with
  | none =>
    rw [next?_eq_none_iff.1 ht, read_unquotedTerm_of_none (read_piece_nil hs hu),
      read_quotedBody_of_ne special (by simp)]
    rfl
  | some found =>
    obtain ⟨e, rest⟩ := found
    dsimp only
    by_cases hq : e = single Text.quote
    · have he : endsBare e := by simp [endsAt, hq]
      have hw := (next?_eq_some_iff.1 ht).1
      rw [if_pos hq, read_unquotedTerm_of_none (read_piece_of_ends hs hu ht he), hw, hq]
      simp only [written, List.cons_append, List.nil_append, read_quotedBody hs]
      cases (run endsQuoted rest).2 <;> rfl
    · have hh : t.afterSpaces.head? ≠ some Text.quote := by
        intro h
        exact hq ((head?_eq_some_iff isDelimiter_quote ht).1 h)
      rw [if_neg hq, read_quotedBody_of_ne special hh,
        read_unquotedTerm hs ht (not_endsBare_of_afterSpaces ht hq)]
      rfl

theorem read_terms (hs : FindsSpecial lookup special) (preserveQuotes : Bool) (t : Text) :
    (terms special preserveQuotes).read t =
      some ((Token.scan t).1.map (Token.value lookup preserveQuotes), (Token.scan t).2) := by
  have hterm : (term special preserveQuotes).read =
      fun t => (Token.next? t).map fun (token, last) =>
        (token.value lookup preserveQuotes, last) :=
    funext (read_term hs preserveQuotes)
  rw [terms, Peg.read, hterm, Peg.repeated_map, Token.scan]

end Terms

end Grammar

open Grammar in
theorem parse_terms (lookup : Lookup) (preserveQuotes : Bool) (text : Text) :
    ∃ rest, (terms (special lookup) preserveQuotes).parse (Cursor.ofText text) =
        .success ((Token.scan text).1.map (Token.value lookup preserveQuotes)) rest ∧
      rest.ahead = (Token.scan text).2 ∧
      rest.start = text.length - (Token.scan text).2.length :=
  Peg.parse_of_read (read_terms (special_findsSpecial lookup) preserveQuotes text)

/-- A text is accepted if its tokens use it up, and otherwise rejected where they end. -/
theorem tokenize_eq_scan (lookup : Lookup) (preserveQuotes : Bool) (text : Text) :
    tokenize lookup preserveQuotes text =
      if (Token.scan text).2 = [] then
        .ok ((Token.scan text).1.map (Token.value lookup preserveQuotes))
      else .error ⟨text, (text.length - (Token.scan text).2.length : Nat)⟩ := by
  obtain ⟨rest, hp, ha, hs⟩ := parse_terms lookup preserveQuotes text
  rw [tokenize, hp]
  simp only [← Cursor.ahead_eq_nil_iff, ha, hs]

end CommandText
