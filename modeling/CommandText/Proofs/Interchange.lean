import CommandText.Proofs.Terms

/-!
# Parsers that can stand for each other

Two parsers agree if at every cursor they find the same value and go on from the same place, or both
fail. What they expect where they fail may differ. Agreement is kept by everything that parsers are
put together with, so a part of a grammar can be exchanged for one that agrees with it, and the
tokens of every text stay the same. Two alternatives that never succeed at the same cursor can be
tried in either order, and an alternative that succeeds only where an earlier one does is never
reached.
-/

namespace CommandText

namespace Cursor

theorem Behind.eq_of_ahead {c d e : Cursor} (hd : c.Behind d) (he : c.Behind e)
    (h : d.ahead = e.ahead) : d = e := by
  apply Cursor.ext
  · rw [hd.text, he.text]
  · rw [hd.start_eq, he.start_eq, h]
  · rw [hd.stop, he.stop]

end Cursor

namespace Outcome

variable {α : Type}

def success? : Outcome α → Option (α × Cursor)
  | success value rest => some (value, rest)
  | failure _ _ => none

theorem found_eq (o : Outcome α) : o.found = o.success?.map fun (v, rest) => (v, rest.ahead) := by
  cases o <;> rfl

end Outcome

namespace Peg

variable {α β γ : Type}

/-- At every cursor both parsers find the same value and go on from the same place, or both fail. -/
def Agrees (p q : Peg α) : Prop := ∀ c, (p.parse c).success? = (q.parse c).success?

/-- At no cursor do both parsers succeed. -/
def Exclusive (p : Peg α) (q : Peg β) : Prop :=
  ∀ c, ¬((p.parse c).success?.isSome ∧ (q.parse c).success?.isSome)

theorem isSome_success? (p : Peg α) (c : Cursor) :
    (p.parse c).success?.isSome = (p.read c.ahead).isSome := by
  rw [← found_parse, Outcome.found_eq, Option.isSome_map]

theorem parse_eq_success_iff {p : Peg α} {c rest : Cursor} {v : α} :
    p.parse c = .success v rest ↔ p.read c.ahead = some (v, rest.ahead) ∧ c.Behind rest := by
  constructor
  · intro h
    have hfound := p.found_parse c
    have hwithin := p.parse_within c
    rw [h] at hfound hwithin
    exact ⟨hfound.symm, hwithin⟩
  · rintro ⟨hread, hbehind⟩
    obtain ⟨rest', hparse, hahead, -⟩ := parse_of_read hread
    have hwithin := p.parse_within c
    rw [hparse] at hwithin
    rw [hparse, Cursor.Behind.eq_of_ahead hwithin hbehind hahead]

theorem agrees_iff {p q : Peg α} : p.Agrees q ↔ ∀ t, p.read t = q.read t := by
  constructor
  · intro h t
    have hp := p.found_parse (Cursor.ofText t)
    have hq := q.found_parse (Cursor.ofText t)
    rw [Outcome.found_eq, h] at hp
    rw [Outcome.found_eq] at hq
    exact hp.symm.trans hq
  · intro h c
    cases hp : p.parse c with
    | success v rest =>
      obtain ⟨hread, hbehind⟩ := parse_eq_success_iff.1 hp
      rw [parse_eq_success_iff.2 ⟨(h c.ahead).symm.trans hread, hbehind⟩]
    | failure pos expected =>
      cases hq : q.parse c with
      | success v rest =>
        obtain ⟨hread, hbehind⟩ := parse_eq_success_iff.1 hq
        rw [parse_eq_success_iff.2 ⟨(h c.ahead).trans hread, hbehind⟩] at hp
        cases hp
      | failure pos' expected' => rfl

theorem exclusive_iff {p : Peg α} {q : Peg β} :
    p.Exclusive q ↔ ∀ t, (p.read t).isSome → q.read t = none := by
  unfold Exclusive
  simp only [isSome_success?, not_and, Option.not_isSome_iff_eq_none]
  constructor
  · intro h t
    exact h (Cursor.ofText t)
  · intro h c
    exact h c.ahead

namespace Agrees

theorem refl (p : Peg α) : p.Agrees p := fun _ => rfl

theorem symm {p q : Peg α} (h : p.Agrees q) : q.Agrees p := fun c => (h c).symm

theorem trans {p q r : Peg α} (h : p.Agrees q) (h' : q.Agrees r) : p.Agrees r :=
  fun c => (h c).trans (h' c)

theorem seq {p p' : Peg α} {q q' : Peg β} (hp : p.Agrees p') (hq : q.Agrees q') :
    (Peg.seq p q).Agrees (Peg.seq p' q') := by
  rw [agrees_iff] at hp hq ⊢
  intro t
  simp only [read, hp, hq]

theorem alt {p p' q q' : Peg α} (hp : p.Agrees p') (hq : q.Agrees q') :
    (Peg.alt p q).Agrees (Peg.alt p' q') := by
  rw [agrees_iff] at hp hq ⊢
  intro t
  simp only [read, hp, hq]

theorem except {p p' : Peg α} {q q' : Peg β} {shown shown' : β → Text} (hp : p.Agrees p')
    (hq : q.Agrees q') : (Peg.except p q shown).Agrees (Peg.except p' q' shown') := by
  rw [agrees_iff] at hp hq ⊢
  intro t
  simp only [read, hp, hq]

theorem many {p p' : Peg α} (hp : p.Agrees p') : (Peg.many p).Agrees (Peg.many p') := by
  rw [agrees_iff] at hp ⊢
  intro t
  simp only [read, funext hp]

theorem many1 {p p' : Peg α} (hp : p.Agrees p') : (Peg.many1 p).Agrees (Peg.many1 p') := by
  rw [agrees_iff] at hp ⊢
  intro t
  simp only [read, funext hp]

theorem map {p p' : Peg α} (f : α → β) (hp : p.Agrees p') :
    (Peg.map f p).Agrees (Peg.map f p') := by
  rw [agrees_iff] at hp ⊢
  intro t
  simp only [read, hp]

theorem between {opening opening' : Peg α} {p p' : Peg β} {closing closing' : Peg γ}
    (ho : opening.Agrees opening') (hp : p.Agrees p') (hc : closing.Agrees closing') :
    (Peg.between opening p closing).Agrees (Peg.between opening' p' closing') :=
  (((ho.seq hp).seq hc).map _).map _

end Agrees

/-- Alternatives that exclude each other can be tried in either order. -/
theorem Exclusive.alt_agrees {p q : Peg α} (h : p.Exclusive q) :
    (Peg.alt q p).Agrees (Peg.alt p q) := by
  rw [exclusive_iff] at h
  rw [agrees_iff]
  intro t
  rw [read_alt, read_alt]
  cases hp : p.read t with
  | none => simp
  | some found => simp [h t (by simp [hp])]

theorem alt_assoc_agrees (p q r : Peg α) :
    (Peg.alt (Peg.alt p q) r).Agrees (Peg.alt p (Peg.alt q r)) := by
  rw [agrees_iff]
  intro t
  simp only [read_alt, Option.or_assoc]

/-- A second alternative is never reached if it succeeds only where the first one does. -/
theorem alt_agrees_left {p q : Peg α} (h : ∀ t, (q.read t).isSome → (p.read t).isSome) :
    (Peg.alt p q).Agrees p := by
  rw [agrees_iff]
  intro t
  rw [read_alt]
  cases hp : p.read t with
  | some found => rfl
  | none =>
    rw [Option.none_or, ← Option.not_isSome_iff_eq_none]
    intro hq
    simpa [hp] using h t hq

end Peg

namespace Grammar

theorem eq_of_read_escapePair {a b : UInt16} {t rest value : Text}
    (h : (escapePair a b).read t = some (value, rest)) : t = a :: b :: rest := by
  cases t with
  | nil => cases h
  | cons u t =>
    cases t with
    | nil =>
      rw [read_escapePair_singleton] at h
      cases h
    | cons v t =>
      rw [read_escapePair] at h
      split_ifs at h with hpair
      obtain ⟨-, rfl⟩ := Prod.mk.inj (Option.some.inj h)
      rw [hpair.1, hpair.2]

theorem read_name_percent_pair (t : Text) :
    name.read (Text.percent :: Text.percent :: t) = some ([], t) := by
  simp [read_name, percent, Peg.read_unit_cons, Text.cut?]

section

-- The rules behind `special` agree for parsers that agree in its place.

variable {special special' : Peg Text} (h : special.Agrees special')

include h

theorem plainUnit_agrees : (plainUnit special).Agrees (plainUnit special') := .except (.refl _) h

theorem unquotedPiece_agrees : (unquotedPiece special).Agrees (unquotedPiece special') :=
  (Peg.Agrees.except (.except (plainUnit_agrees h) (.refl _)) (.refl _)).many1

theorem quotedPiece_agrees : (quotedPiece special).Agrees (quotedPiece special') :=
  (Peg.Agrees.except (plainUnit_agrees h) (.refl _)).many1

theorem unquotedTerm_agrees : (unquotedTerm special).Agrees (unquotedTerm special') :=
  ((unquotedPiece_agrees h).alt h).many1.map _

theorem quotedTerm_agrees (preserveQuotes : Bool) :
    (quotedTerm special preserveQuotes).Agrees (quotedTerm special' preserveQuotes) :=
  (Peg.Agrees.between (.refl _) (((quotedPiece_agrees h).alt h).many.map _) (.refl _)).map _

theorem term_agrees (preserveQuotes : Bool) :
    (term special preserveQuotes).Agrees (term special' preserveQuotes) :=
  .between (.refl _) ((quotedTerm_agrees h preserveQuotes).alt (unquotedTerm_agrees h)) (.refl _)

end

end Grammar

def tokenizeBy (terms : Peg (List Text)) (text : Text) : Except Rejection (List Text) :=
  match terms.parse (Cursor.ofText text) with
  | .success tokens rest => if rest.isEnd then .ok tokens else .error ⟨text, rest.start⟩
  | .failure pos _ => .error ⟨text, pos⟩

theorem tokenize_eq_tokenizeBy (lookup : Lookup) (preserveQuotes : Bool) :
    tokenize lookup preserveQuotes =
      tokenizeBy (Grammar.terms (Grammar.special lookup) preserveQuotes) := rfl

theorem tokenizeBy_congr {term term' : Peg Text} (h : term.Agrees term') (text : Text) :
    tokenizeBy (.many term) text = tokenizeBy (.many term') text := by
  have hmany : (Peg.iterate term.parse (Cursor.ofText text)) =
      Peg.iterate term'.parse (Cursor.ofText text) := Option.some.inj (h.many (Cursor.ofText text))
  unfold tokenizeBy
  rw [Peg.parse, Peg.parse, hmany]

end CommandText
