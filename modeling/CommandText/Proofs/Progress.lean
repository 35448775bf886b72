import CommandText.Command.Grammar
import CommandText.Proofs.Repetition

/-!
# Every match of the grammar moves on

A repetition stops at a match that stands still and drops its value. The test looks at offsets and
not at values, so an empty value is as good as any other. In the grammar nothing is ever dropped:
each of the parsers that it repeats, which `Peg.repeatedParts` lists, takes at least one unit with
every match. `Peg.minUnits` reads such a bound off the shape of a parser, and `Peg.takes_minUnits`
says that every match keeps to it. `Peg.attempts` lists what a parser finds each time that its
repetition runs it, and `Peg.matched_eq` compares this with what the repetition collects: only the
value of the last attempt is missing, if it has one.
-/

namespace CommandText

namespace Outcome

variable {α β : Type}

def value? (o : Outcome α) : Option α := o.found.map Prod.fst

theorem exists_of_map_eq_success {f : α → β} {o : Outcome α} {w : β} {rest : Cursor}
    (h : o.map f = .success w rest) : ∃ v, o = .success v rest := by
  cases o with
  | failure pos expected => cases h
  | success v last =>
    cases h
    exact ⟨v, rfl⟩

end Outcome

namespace Peg

variable {α β : Type}

/-- Every match of the parser takes at least a number of units. -/
def Takes (p : Peg α) (n : Nat) : Prop :=
  ∀ c v rest, p.parse c = .success v rest → c.start + n ≤ rest.start

/-- A number of units that no match falls short of, by the shape of the parser. -/
def minUnits : {α : Type} → Peg α → Nat
  | _, any => 1
  | _, unit _ => 1
  | _, seq p q => p.minUnits + q.minUnits
  | _, alt p q => min p.minUnits q.minUnits
  | _, except p _ _ => p.minUnits
  | _, many _ => 0
  | _, many1 p => p.minUnits
  | _, map _ p => p.minUnits

theorem takes_zero (p : Peg α) : p.Takes 0 := by
  intro c v rest h
  exact (behind_of_parse h).start

theorem takes_any : any.Takes 1 := by
  intro c v rest h
  rw [parse] at h
  split at h
  · next u behind hnext =>
    cases h
    exact Nat.le_of_eq (Cursor.next?_eq_some hnext).2.2.2.symm
  · cases h

theorem takes_unit (u : UInt16) : (unit u).Takes 1 := by
  intro c v rest h
  rw [parse] at h
  split at h
  · next w behind hnext =>
    split_ifs at h
    cases h
    exact Nat.le_of_eq (Cursor.next?_eq_some hnext).2.2.2.symm
  · cases h

namespace Takes

variable {m n : Nat}

theorem mono {p : Peg α} (hp : p.Takes n) (h : m ≤ n) : p.Takes m := by
  intro c v rest hparse
  exact Nat.le_trans (Nat.add_le_add_left h c.start) (hp c v rest hparse)

theorem seq {p : Peg α} {q : Peg β} (hp : p.Takes m) (hq : q.Takes n) :
    (Peg.seq p q).Takes (m + n) := by
  intro c v rest h
  rw [parse] at h
  split at h
  · next a middle hfirst =>
    obtain ⟨b, hsecond⟩ := Outcome.exists_of_map_eq_success h
    have hm := hp c a middle hfirst
    have hn := hq middle b rest hsecond
    omega
  · cases h

theorem alt {p q : Peg α} (hp : p.Takes n) (hq : q.Takes n) : (Peg.alt p q).Takes n := by
  intro c v rest h
  rw [parse] at h
  split at h
  · next hfirst =>
    cases h
    exact hp c v rest hfirst
  · split at h
    · next hsecond =>
      cases h
      exact hq c v rest hsecond
    · cases h

theorem except {p : Peg α} (hp : p.Takes n) (excluded : Peg β) (shown : β → Text) :
    (Peg.except p excluded shown).Takes n := by
  intro c v rest h
  rw [parse] at h
  split at h
  · cases h
  · exact hp c v rest h

theorem map {p : Peg α} (hp : p.Takes n) (f : α → β) : (Peg.map f p).Takes n := by
  intro c v rest h
  rw [parse] at h
  obtain ⟨a, hfound⟩ := Outcome.exists_of_map_eq_success h
  exact hp c a rest hfound

theorem many1 {p : Peg α} (hp : p.Takes n) : (Peg.many1 p).Takes n := by
  intro c v rest h
  rw [parse_many1] at h
  exact (hp.seq (takes_zero (Peg.many p))).map _ c v rest h

end Takes

/-- No match falls short of the bound that the shape of its parser gives. -/
theorem takes_minUnits (p : Peg α) : p.Takes p.minUnits := by
  induction p with
  | any => exact takes_any
  | unit u => exact takes_unit u
  | seq p q ihp ihq => exact ihp.seq ihq
  | alt p q ihp ihq => exact (ihp.mono (Nat.min_le_left _ _)).alt (ihq.mono (Nat.min_le_right _ _))
  | except p excluded shown ihp _ => exact ihp.except excluded shown
  | many p _ => exact takes_zero (many p)
  | many1 p ih => exact ih.many1
  | map f p ih => exact ih.map f

/-- What a parser finds each time that it is run by its repetition. The last attempt is one that
fails or stands still. -/
def attempts (p : Peg α) (c : Cursor) : List (Outcome α) :=
  match h : p.parse c with
  | .failure pos expected => [.failure pos expected]
  | .success v rest =>
    if hstill : rest.start = c.start then [.success v rest]
    else
      have := (behind_of_parse h).remaining_lt_iff.2 hstill
      .success v rest :: attempts p rest
termination_by c.remaining

/-- The values that the attempts of a repetition find, whether they are collected or not. -/
def matched (p : Peg α) (c : Cursor) : List α := (p.attempts c).filterMap Outcome.value?

theorem matched_eq (p : Peg α) (c : Cursor) :
    p.matched c =
      (iterate p.parse c).1 ++ (p.parse (iterate p.parse c).2).value?.toList := by
  unfold matched
  fun_induction attempts p c with
  | case1 c pos expected h =>
    have hrests : p.RestsAt c := .inl ⟨pos, expected, h⟩
    rw [iterate_of_restsAt hrests, h]
    rfl
  | case2 c v rest h hstill =>
    obtain rfl := (behind_of_parse h).eq_of_start hstill
    have hrests : p.RestsAt rest := .inr ⟨v, h⟩
    rw [iterate_of_restsAt hrests, h]
    rfl
  | case3 c v rest h hstill _ ih =>
    have hmoves : c.start < rest.start :=
      Nat.lt_of_le_of_ne (behind_of_parse h).start (Ne.symm hstill)
    rw [iterate_of_moves h hmoves]
    exact congrArg (v :: ·) ih

theorem length_matched (p : Peg α) (c : Cursor) :
    (p.matched c).length = (p.attempts c).countP fun o => o.value?.isSome :=
  List.length_filterMap_eq_countP

/-- Neither repetition of a parser loses the value of a match. At least one match is missing only
where no attempt finds any. -/
structure KeepsMatches (p : Peg α) : Prop where
  many : ∀ c, ∃ rest, (Peg.many p).parse c = .success (p.matched c) rest
  many1 : ∀ c, (p.matched c = [] ∧ ∃ pos expected, (Peg.many1 p).parse c = .failure pos expected) ∨
    ∃ rest, (Peg.many1 p).parse c = .success (p.matched c) rest

/-- If every match takes a unit, the last attempt fails and so has no value. -/
theorem Takes.matched_eq_iterate {p : Peg α} (hp : p.Takes 1) (c : Cursor) :
    p.matched c = (iterate p.parse c).1 := by
  obtain ⟨-, -, -, hrests⟩ := p.exists_rounds c
  rw [matched_eq]
  rcases hrests with ⟨pos, expected, hlast⟩ | ⟨v, hlast⟩
  · rw [hlast]
    exact List.append_nil _
  · have hmoves := hp _ v _ hlast
    omega

theorem parse_many1_of_moves {p : Peg α} {c rest : Cursor} {v : α}
    (hp : p.parse c = .success v rest) (h : c.start < rest.start) :
    (many1 p).parse c = .success (iterate p.parse c).1 (iterate p.parse c).2 := by
  rw [parse_many1, parse, parse, hp, iterate_of_moves hp h]
  dsimp only
  rw [parse_many]
  rfl

theorem Takes.keepsMatches {p : Peg α} (hp : p.Takes 1) : p.KeepsMatches := by
  constructor
  · intro c
    rw [hp.matched_eq_iterate]
    exact ⟨_, p.parse_many c⟩
  · intro c
    rw [hp.matched_eq_iterate]
    cases hfirst : p.parse c with
    | failure pos expected =>
      have hrests : p.RestsAt c := .inl ⟨pos, expected, hfirst⟩
      rw [iterate_of_restsAt hrests, parse, hfirst]
      exact .inl ⟨rfl, pos, expected, rfl⟩
    | success v first =>
      exact .inr ⟨_, parse_many1_of_moves hfirst (hp c v first hfirst)⟩

/-- The parsers that are repeated somewhere in a parser. -/
def repeatedParts : {α : Type} → Peg α → List (Σ β : Type, Peg β)
  | _, any => []
  | _, unit _ => []
  | _, seq p q => p.repeatedParts ++ q.repeatedParts
  | _, alt p q => p.repeatedParts ++ q.repeatedParts
  | _, except p excluded _ => p.repeatedParts ++ excluded.repeatedParts
  | _, many p => ⟨_, p⟩ :: p.repeatedParts
  | _, many1 p => ⟨_, p⟩ :: p.repeatedParts
  | _, map _ p => p.repeatedParts

end Peg

namespace Grammar

theorem takes_of_mem_repeatedParts (lookup : Lookup) (preserveQuotes : Bool) :
    ∀ part ∈ (terms (special lookup) preserveQuotes).repeatedParts, part.2.Takes 1 := by
  have hbounds : ((terms (special lookup) preserveQuotes).repeatedParts.all fun part =>
      1 ≤ part.2.minUnits) = true := rfl
  intro part hpart
  have hbound := of_decide_eq_true (List.all_eq_true.1 hbounds part hpart)
  exact part.2.takes_minUnits.mono hbound

/-- Every match of a rule takes at least one unit, and at least two for a reference, an escape pair
or a quoted term, whatever values the lookup gives. So no repetition in the grammar loses a match:
there are as many tokens as terms that are found, and no more than units that are taken. -/
theorem every_match_moves_on (lookup : Lookup) (preserveQuotes : Bool) :
    ((reference lookup).Takes 2 ∧ escape.Takes 2 ∧ (special lookup).Takes 2 ∧
      (quotedTerm (special lookup) preserveQuotes).Takes 2) ∧
    ((unquotedPiece (special lookup)).Takes 1 ∧ (quotedPiece (special lookup)).Takes 1 ∧
      (unquotedTerm (special lookup)).Takes 1 ∧
      (term (special lookup) preserveQuotes).Takes 1) ∧
    (∀ part ∈ (terms (special lookup) preserveQuotes).repeatedParts,
      part.2.Takes 1 ∧ part.2.KeepsMatches) ∧
    ∀ c, ∃ tokens rest,
      (terms (special lookup) preserveQuotes).parse c = .success tokens rest ∧
      tokens.length = ((term (special lookup) preserveQuotes).attempts c).countP
        (fun o => o.value?.isSome) ∧
      c.start + tokens.length ≤ rest.start := by
  -- The bounds are those that the shapes of the rules give.
  have hterm : (term (special lookup) preserveQuotes).Takes 1 :=
    (term (special lookup) preserveQuotes).takes_minUnits
  refine ⟨⟨?_, ?_, ?_, ?_⟩, ⟨?_, ?_, ?_, hterm⟩, ?_, ?_⟩
  · exact (reference lookup).takes_minUnits
  · exact escape.takes_minUnits
  · exact (special lookup).takes_minUnits
  · exact (quotedTerm (special lookup) preserveQuotes).takes_minUnits
  · exact (unquotedPiece (special lookup)).takes_minUnits
  · exact (quotedPiece (special lookup)).takes_minUnits
  · exact (unquotedTerm (special lookup)).takes_minUnits
  · intro part hpart
    have htakes := takes_of_mem_repeatedParts lookup preserveQuotes part hpart
    exact ⟨htakes, htakes.keepsMatches⟩
  · intro c
    obtain ⟨rest, hparse⟩ := hterm.keepsMatches.many c
    refine ⟨_, rest, hparse, Peg.length_matched _ c, ?_⟩
    have hlength := Peg.length_le_of_parse_many hparse
    have hstart := (Peg.behind_of_parse hparse).start
    omega

/-- The text `%% ""`. -/
def emptyTerms : Text := [Text.percent, Text.percent, Text.space, Text.quote, Text.quote]

/-- With a lookup that gives every name the empty value, the reference at the start of a text takes
two units although it stands for nothing, and it counts as a term, as the two quotes do. -/
theorem every_match_moves_on_with_empty_values :
    ∃ rest rest',
      (reference fun _ => some []).parse (Cursor.ofText emptyTerms) = .success [] rest ∧
      (Cursor.ofText emptyTerms).start + 2 ≤ rest.start ∧
      (terms (special fun _ => some []) false).parse (Cursor.ofText emptyTerms) =
        .success [[], []] rest' ∧
      (term (special fun _ => some []) false).matched (Cursor.ofText emptyTerms) = [[], []] ∧
      ((term (special fun _ => some []) false).attempts (Cursor.ofText emptyTerms)).countP
        (fun o => o.value?.isSome) = 2 ∧
      (Cursor.ofText emptyTerms).start + 2 ≤ rest'.start := by
  have href : (reference fun _ => some []).parse (Cursor.ofText emptyTerms) =
      .success [] (Cursor.window emptyTerms 2 5 (by decide) (by decide)) := rfl
  have hterms : (terms (special fun _ => some []) false).parse (Cursor.ofText emptyTerms) =
      .success [[], []] (Cursor.window emptyTerms 5 5 (by decide) (by decide)) := rfl
  obtain ⟨⟨htakes, -⟩, -, hparts, hcount⟩ := every_match_moves_on (fun _ => some []) false
  obtain ⟨rest, hmany⟩ := (hparts ⟨_, term (special fun _ => some []) false⟩
    List.mem_cons_self).2.many (Cursor.ofText emptyTerms)
  obtain ⟨tokens, rest', hparse, hlength, hunits⟩ := hcount (Cursor.ofText emptyTerms)
  obtain ⟨hmatched, -⟩ := Outcome.success.inj (hmany.symm.trans hterms)
  obtain ⟨rfl, rfl⟩ := Outcome.success.inj (hparse.symm.trans hterms)
  exact ⟨_, _, href, htakes _ _ _ href, hterms, hmatched, hlength.symm, hunits⟩

end Grammar

end CommandText
