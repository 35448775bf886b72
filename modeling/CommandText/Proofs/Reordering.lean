import CommandText.Proofs.Interchange
import Mathlib.Tactic.ByContra

/-!
# The order of alternatives does not matter

Of the alternatives of the grammar, only those of `special` can succeed at the same place, and only
at two percent signs. All others exclude each other: escape pairs differ in their units, a piece
takes only units at which nothing special starts, and a quoted term starts with a quote while an
unquoted one does not. They can therefore be tried in any order, and `Order` says for each of them
in which one.
-/

namespace CommandText

namespace Peg

variable {α β γ : Type}

namespace Exclusive

theorem alt_left {p q : Peg α} {r : Peg β} (hp : p.Exclusive r) (hq : q.Exclusive r) :
    (Peg.alt p q).Exclusive r := by
  rw [exclusive_iff] at hp hq ⊢
  intro t h
  rw [read_alt, Option.isSome_or, Bool.or_eq_true] at h
  exact h.elim (hp t) (hq t)

theorem symm {p : Peg α} {q : Peg β} (h : p.Exclusive q) : q.Exclusive p :=
  fun c hc => h c hc.symm

theorem except_left {p : Peg α} {q : Peg β} (h : p.Exclusive q) (excluded : Peg γ)
    (shown : γ → Text) : (Peg.except p excluded shown).Exclusive q := by
  rw [exclusive_iff] at h ⊢
  intro t hsome
  rw [read_except] at hsome
  split_ifs at hsome
  · cases hsome
  · exact h t hsome

theorem many1_left {p : Peg α} {q : Peg β} (h : p.Exclusive q) : (Peg.many1 p).Exclusive q := by
  rw [exclusive_iff] at h ⊢
  intro t hsome
  apply h t
  cases hp : p.read t with
  | some found => rfl
  | none =>
    rw [read_many1_of_none hp] at hsome
    cases hsome

end Exclusive

theorem except_exclusive (p : Peg α) (excluded : Peg β) (shown : β → Text) :
    (Peg.except p excluded shown).Exclusive excluded := by
  rw [exclusive_iff]
  intro t h
  rw [read_except] at h
  split_ifs at h with hexcluded
  · cases h
  · exact Option.not_isSome_iff_eq_none.1 hexcluded

def altIn (swapped : Bool) (p q : Peg α) : Peg α := if swapped then .alt q p else .alt p q

theorem altIn_agrees {p p' q q' : Peg α} (hp : p'.Agrees p) (hq : q'.Agrees q)
    (h : p.Exclusive q) (swapped : Bool) : (altIn swapped p' q').Agrees (Peg.alt p q) := by
  cases swapped with
  | false => exact hp.alt hq
  | true => exact (hq.alt hp).trans h.alt_agrees

end Peg

namespace Grammar

open Element

theorem escapePair_exclusive {a b a' b' : UInt16} (h : (a, b) ≠ (a', b')) :
    (escapePair a b).Exclusive (escapePair a' b') := by
  rw [Peg.exclusive_iff]
  intro t hsome
  obtain ⟨⟨value, rest⟩, hread⟩ := Option.isSome_iff_exists.1 hsome
  rw [eq_of_read_escapePair hread, read_escapePair, if_neg]
  rintro ⟨rfl, rfl⟩
  exact h rfl

theorem unquotedPiece_exclusive (special : Peg Text) :
    (unquotedPiece special).Exclusive special :=
  (((Peg.except_exclusive _ _ _).except_left _ _).except_left _ _).many1_left

theorem quotedPiece_exclusive (special : Peg Text) : (quotedPiece special).Exclusive special :=
  ((Peg.except_exclusive _ _ _).except_left _ _).many1_left

theorem quotedTerm_exclusive {lookup : Lookup} {special : Peg Text}
    (hs : FindsSpecial lookup special) (preserveQuotes : Bool) :
    (quotedTerm special preserveQuotes).Exclusive (unquotedTerm special) := by
  rw [Peg.exclusive_iff]
  intro t hsome
  have hhead : t.head? = some Text.quote := by
    by_contra hne
    rw [quotedTerm, Peg.read, read_quotedBody_of_ne special hne] at hsome
    cases hsome
  obtain ⟨body, rfl⟩ := List.head?_eq_some_iff.1 hhead
  apply read_unquotedTerm_of_none
  exact read_piece_of_ends hs (unquotedUnit_findsSingle hs)
    (next?_delimiter isDelimiter_quote body) (by simp [endsAt])

/-- A reference and an escape pair start at the same place only if two percent signs stand there. -/
theorem reference_and_escape_iff (lookup : Lookup) (t : Text) :
    ((reference lookup).read t).isSome ∧ (escape.read t).isSome ↔
      ∃ rest, t = Text.percent :: Text.percent :: rest := by
  constructor
  · rintro ⟨hreference, hescape⟩
    rw [reference, Peg.read, Option.isSome_map, read_name] at hreference
    cases t with
    | nil => cases hreference
    | cons u t =>
      have hu : u = Text.percent := by
        by_contra hne
        rw [percent, Peg.read_unit_cons, if_neg hne] at hreference
        cases hreference
      cases t with
      | nil =>
        rw [read_escape_singleton] at hescape
        cases hescape
      | cons v rest =>
        rw [read_escape] at hescape
        split_ifs at hescape with hpair
        · rcases hpair with ⟨-, rfl⟩ | hpair
          · exact ⟨rest, by rw [hu]⟩
          · exact absurd hu (ne_percent_of_isPair hpair)
        · cases hescape
  · rintro ⟨rest, rfl⟩
    rw [reference, Peg.read, read_name_percent_pair, read_escape]
    simp

end Grammar

/-- Which alternatives of the grammar are tried in the opposite order. Those of `special` always
stand as they are. -/
structure Order where
  /-- The pairs that start with a percent sign or a caret, and those that start with a backslash. -/
  escapes : Bool
  /-- The pair of percent signs and the pair of carets. -/
  doubled : Bool
  /-- A backslash before a backslash and before a quote. -/
  backslashed : Bool
  /-- Pieces and specials of an unquoted term. -/
  unquotedParts : Bool
  /-- Pieces and specials of a quoted term. -/
  quotedParts : Bool
  /-- Quoted and unquoted terms. -/
  terms : Bool

namespace Order

open Grammar

def escape (o : Order) : Peg Text :=
  .altIn o.escapes
    (.altIn o.doubled (escapePair Text.percent Text.percent) (escapePair Text.caret Text.caret))
    (.altIn o.backslashed (escapePair Text.backslash Text.backslash)
      (escapePair Text.backslash Text.quote))

def special (o : Order) (lookup : Lookup) : Peg Text := .alt (reference lookup) o.escape

section

variable (o : Order) (special : Peg Text) (preserveQuotes : Bool)

def unquotedTerm : Peg Text :=
  .joined (.many1 (.altIn o.unquotedParts (unquotedPiece special) special))

def quotedTerm : Peg Text :=
  (Peg.between quote (.joined (.many (.altIn o.quotedParts (quotedPiece special) special)))
    quote).map (requote preserveQuotes)

def term : Peg Text :=
  .between (.many space)
    (.altIn o.terms (o.quotedTerm special preserveQuotes) (o.unquotedTerm special)) (.many space)

end

def tokenize (o : Order) (lookup : Lookup) (preserveQuotes : Bool) :
    Text → Except Rejection (List Text) :=
  tokenizeBy (.many (o.term (o.special lookup) preserveQuotes))

theorem escape_agrees (o : Order) : o.escape.Agrees Grammar.escape := by
  apply Peg.altIn_agrees (Peg.altIn_agrees (.refl _) (.refl _) (escapePair_exclusive (by decide)) _)
    (Peg.altIn_agrees (.refl _) (.refl _) (escapePair_exclusive (by decide)) _)
  apply Peg.Exclusive.alt_left
  · exact (Peg.Exclusive.alt_left (escapePair_exclusive (by decide))
      (escapePair_exclusive (by decide))).symm
  · exact (Peg.Exclusive.alt_left (escapePair_exclusive (by decide))
      (escapePair_exclusive (by decide))).symm

theorem special_agrees (o : Order) (lookup : Lookup) :
    (o.special lookup).Agrees (Grammar.special lookup) :=
  (Peg.Agrees.refl _).alt o.escape_agrees

section

variable {special special' : Peg Text} (h : special'.Agrees special)

include h

theorem unquotedTerm_agrees (o : Order) :
    (o.unquotedTerm special').Agrees (Grammar.unquotedTerm special) :=
  (Peg.altIn_agrees (unquotedPiece_agrees h) h (unquotedPiece_exclusive special) _).many1.map _

theorem quotedTerm_agrees (o : Order) (preserveQuotes : Bool) :
    (o.quotedTerm special' preserveQuotes).Agrees (Grammar.quotedTerm special preserveQuotes) := by
  have hpart := Peg.altIn_agrees (quotedPiece_agrees h) h (quotedPiece_exclusive special)
    o.quotedParts
  exact (Peg.Agrees.between (.refl _) (hpart.many.map _) (.refl _)).map _

theorem term_agrees {lookup : Lookup} (hs : FindsSpecial lookup special) (o : Order)
    (preserveQuotes : Bool) :
    (o.term special' preserveQuotes).Agrees (Grammar.term special preserveQuotes) :=
  .between (.refl _) (Peg.altIn_agrees (quotedTerm_agrees h o preserveQuotes)
    (unquotedTerm_agrees h o) (quotedTerm_exclusive hs preserveQuotes) _) (.refl _)

end

theorem tokenize_eq (o : Order) (lookup : Lookup) (preserveQuotes : Bool) (text : Text) :
    o.tokenize lookup preserveQuotes text = CommandText.tokenize lookup preserveQuotes text := by
  have hterm := term_agrees (o.special_agrees lookup) (special_findsSpecial lookup) o preserveQuotes
  rw [tokenize_eq_tokenizeBy]
  exact tokenizeBy_congr hterm text

end Order

open Grammar in
/-- The grammar is unambiguous apart from two percent signs. At no cursor do both a quoted and an
unquoted term succeed, nor both a piece and something special, nor two of the escape pairs; and a
reference and an escape pair both succeed exactly where two percent signs are ahead. So all
alternatives but those of `special` can be swapped, each of them or any number together, and every
text is split as before. -/
theorem alternatives_exclude_each_other (lookup : Lookup) (preserveQuotes : Bool) :
    (quotedTerm (special lookup) preserveQuotes).Exclusive (unquotedTerm (special lookup)) ∧
    (unquotedPiece (special lookup)).Exclusive (special lookup) ∧
    (quotedPiece (special lookup)).Exclusive (special lookup) ∧
    [escapePair Text.percent Text.percent, escapePair Text.caret Text.caret,
      escapePair Text.backslash Text.backslash,
      escapePair Text.backslash Text.quote].Pairwise Peg.Exclusive ∧
    (∀ c, ((reference lookup).parse c).success?.isSome ∧ (escape.parse c).success?.isSome ↔
      ∃ rest, c.ahead = Text.percent :: Text.percent :: rest) ∧
    ∀ (o : Order) (text : Text),
      o.tokenize lookup preserveQuotes text = tokenize lookup preserveQuotes text := by
  refine ⟨quotedTerm_exclusive (special_findsSpecial lookup) preserveQuotes,
    unquotedPiece_exclusive _, quotedPiece_exclusive _, ?_, ?_, ?_⟩
  · have hne : [(Text.percent, Text.percent), (Text.caret, Text.caret),
        (Text.backslash, Text.backslash), (Text.backslash, Text.quote)].Pairwise (· ≠ ·) := by
      decide
    exact hne.map (fun p : UInt16 × UInt16 => escapePair p.1 p.2) fun _ _ => escapePair_exclusive
  · intro c
    rw [Peg.isSome_success?, Peg.isSome_success?]
    exact reference_and_escape_iff lookup c.ahead
  · intro o text
    exact o.tokenize_eq lookup preserveQuotes text

-- The alternatives of `special` cannot be swapped.
example : tokenizeBy (.many (Grammar.term
      (.alt Grammar.escape (Grammar.reference Lookup.none)) false)) [Text.percent, Text.percent] =
    .ok [[Text.percent]] := rfl

end CommandText
