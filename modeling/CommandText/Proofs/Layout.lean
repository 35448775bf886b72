import CommandText.Proofs.Derivation
import Mathlib.Data.List.Chain

/-!
# Where the tokens of a text stand

Every unit of an accepted text belongs to one token, or is a space before, between or behind the
tokens. `Token.Derives.exists_layout` says so for the elements of a text: they are those of the
tokens, in order, and the spaces around them. Only a token that starts with a quote may follow or
precede another one without a space.
-/

namespace CommandText

namespace Text

/-- Texts in a row, each with the number of spaces behind it, and spaces before the first one. -/
def spaced (lead : Nat) (row : List (Text × Nat)) : Text :=
  List.replicate lead space ++ row.flatMap fun p => p.1 ++ List.replicate p.2 space

/-- Neighbours in a row have a space between them, unless one of them starts with a quote. -/
def Apart (p q : Text × Nat) : Prop :=
  p.1.head? ≠ some quote → q.1.head? ≠ some quote → 0 < p.2

end Text

namespace Token

open Element

def elements : Token → List Element
  | quoted parts => single Text.quote :: (parts ++ [single Text.quote])
  | bare first others => first :: others

/-- The token as it stands in a text. -/
def written (token : Token) : Text := token.elements.flatMap Element.written

/-- No element of the token ends it early. -/
def Whole : Token → Prop
  | quoted parts => ∀ e ∈ parts, ¬endsQuoted e
  | bare first others => ∀ e ∈ first :: others, ¬endsBare e

/-- The elements of tokens in a row, each with the spaces behind it. -/
def rowElements (row : List (Token × Nat)) : List Element :=
  row.flatMap fun p => p.1.elements ++ List.replicate p.2 (single Text.space)

def writtenRow (row : List (Token × Nat)) : List (Text × Nat) := row.map fun p => (p.1.written, p.2)

theorem rowElements_cons (token : Token) (gap : Nat) (row : List (Token × Nat)) :
    rowElements ((token, gap) :: row) =
      token.elements ++ (List.replicate gap (single Text.space) ++ rowElements row) := by
  unfold rowElements
  rw [List.flatMap_cons, List.append_assoc]

theorem flatMap_written_rowElements (lead : Nat) (row : List (Token × Nat)) :
    (List.replicate lead (single Text.space) ++ rowElements row).flatMap Element.written =
      Text.spaced lead (writtenRow row) := by
  have hrow : (rowElements row).flatMap Element.written =
      (writtenRow row).flatMap fun p => p.1 ++ List.replicate p.2 Text.space := by
    induction row with
    | nil => rfl
    | cons p row ih =>
      rw [rowElements_cons, List.flatMap_append, List.flatMap_append, flatMap_written_replicate, ih]
      exact (List.append_assoc _ _ _).symm
  rw [List.flatMap_append, flatMap_written_replicate, hrow]
  rfl

namespace Derives

variable {es : List Element} {tokens : List Token}

theorem whole (h : Derives es tokens) : ∀ token ∈ tokens, token.Whole := by
  induction h with
  | nil => simp
  | space _ ih => exact ih
  | quoted hparts _ ih => exact List.forall_mem_cons.2 ⟨hparts, ih⟩
  | bare hparts _ _ ih => exact List.forall_mem_cons.2 ⟨hparts, ih⟩

theorem apart_of_bare {token : Token} {lead : Nat} {row : List (Token × Nat)}
    (hwhole : ∀ p ∈ row, p.1.Whole)
    (hend : ∀ e ∈ (List.replicate lead (single Text.space) ++ rowElements row).head?, endsBare e) :
    ∀ q ∈ (writtenRow row).head?, Text.Apart (token.written, lead) q := by
  intro q hq _ hquote
  cases row with
  | nil => cases hq
  | cons p row =>
    obtain rfl : (p.1.written, p.2) = q := Option.some.inj hq
    obtain ⟨token', gap⟩ := p
    cases lead with
    | succ lead => omega
    | zero =>
      cases token' with
      | quoted parts => exact absurd rfl hquote
      | bare first others =>
        have hfirst : ¬endsBare first := hwhole _ List.mem_cons_self first List.mem_cons_self
        exact absurd (hend first rfl) hfirst

/-- Derived tokens stand in a row, with nothing but spaces around them. -/
theorem exists_layout (h : Derives es tokens) :
    ∃ (lead : Nat) (row : List (Token × Nat)), row.map Prod.fst = tokens ∧
      es = List.replicate lead (single Text.space) ++ rowElements row ∧
      (writtenRow row).IsChain Text.Apart := by
  induction h with
  | nil => exact ⟨0, [], rfl, rfl, .nil⟩
  | space _ ih =>
    obtain ⟨lead, row, hrow, hes, hchain⟩ := ih
    exact ⟨lead + 1, row, hrow, by rw [hes]; rfl, hchain⟩
  | @quoted parts es tokens hparts _ ih =>
    obtain ⟨lead, row, hrow, hes, hchain⟩ := ih
    refine ⟨0, (.quoted parts, lead) :: row, by rw [← hrow]; rfl, ?_, ?_⟩
    · rw [rowElements_cons, hes]
      simp [elements]
    · refine List.IsChain.cons hchain ?_
      intro q _ hquote
      exact absurd rfl hquote
  | @bare first others es tokens hparts hend hd ih =>
    obtain ⟨lead, row, hrow, hes, hchain⟩ := ih
    have hwhole : ∀ p ∈ row, p.1.Whole := by
      intro p hp
      exact hd.whole _ (hrow ▸ List.mem_map_of_mem hp)
    refine ⟨0, (.bare first others, lead) :: row, by rw [← hrow]; rfl, ?_, ?_⟩
    · rw [rowElements_cons, hes]
      simp [elements]
    · exact List.IsChain.cons hchain (apart_of_bare hwhole (hes ▸ hend))

end Derives

theorem exists_spaced_of_derives {t : Text} {tokens : List Token} (h : Derives t.elements tokens) :
    ∃ (lead : Nat) (row : List (Token × Nat)), row.map Prod.fst = tokens ∧
      t = Text.spaced lead (writtenRow row) ∧
      t.elements = List.replicate lead (single Text.space) ++ rowElements row ∧
      (writtenRow row).IsChain Text.Apart := by
  obtain ⟨lead, row, hrow, hes, hchain⟩ := h.exists_layout
  refine ⟨lead, row, hrow, ?_, hes, hchain⟩
  rw [← flatMap_written_rowElements, ← hes, flatMap_written_elements]

end Token

end CommandText
