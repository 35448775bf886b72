import CommandText.Proofs.Elements
import Mathlib.Algebra.Ring.Parity
import Mathlib.Tactic.Tauto

/-!
# Texts taken apart and put together

The elements of a text are a row in which each element stands as such in front of what follows. Such
rows are called coherent, and they are the same thing as texts. Two coherent rows put together are
coherent unless something happens where they meet: a percent sign on its own finds a second one
behind the seam, or the last unit before the seam and the first one behind it make a pair. An edited
text therefore has the elements of its parts, and whether a percent sign is left on its own is a
matter of their number.
-/

namespace CommandText

namespace Element

/-- Each element of a row stands as such in front of those that follow. -/
def Coherent : List Element → Prop
  | [] => True
  | e :: es => e.Fits (es.flatMap written) ∧ Coherent es

/-- A text behind a row of elements does not turn one of them into another. -/
structure Meets (es : List Element) (t : Text) : Prop where
  percent : single Text.percent ∈ es → Text.percent ∉ t
  last : ∀ u v, es.getLast? = some (single u) → t.head? = some v → ¬isPair u v

theorem coherent_elements (t : Text) : Coherent t.elements := by
  induction t using induction_on with
  | nil =>
    rw [elements_nil]
    trivial
  | next t e rest h ih =>
    rw [elements_of_next? h]
    refine ⟨?_, ih⟩
    rw [flatMap_written_elements]
    exact (next?_eq_some_iff.1 h).2

/-- A coherent row is the row of elements of the text that it spells. -/
theorem elements_flatMap_written {es : List Element} (h : Coherent es) :
    Text.elements (es.flatMap written) = es := by
  induction es with
  | nil => exact elements_nil
  | cons e es ih =>
    rw [List.flatMap_cons, elements_of_next? (next?_eq_some_iff.2 ⟨rfl, h.1⟩), ih h.2]

theorem elements_written {e : Element} (h : e.Fits []) : Text.elements e.written = [e] := by
  have hrow : Coherent [e] := ⟨h, trivial⟩
  have he := elements_flatMap_written hrow
  rwa [List.flatMap_singleton] at he

theorem eq_of_elements_eq {t t' : Text} (h : t.elements = t'.elements) : t = t' := by
  rw [← flatMap_written_elements t, h, flatMap_written_elements]

/-- What follows a text matters to an element before the text only for a percent sign on its own
and, if the text is empty, for the first unit of a pair. -/
theorem fits_append_iff {e : Element} {a b : Text} :
    e.Fits (a ++ b) ↔ e.Fits a ∧ (e = single Text.percent → Text.percent ∉ b) ∧
      (a = [] → ∀ u v, e = single u → b.head? = some v → ¬isPair u v) := by
  cases e with
  | reference name => simp [Fits]
  | pair u v => simp [Fits]
  | single u =>
    rw [Fits, Fits, List.mem_append, not_or, single.injEq]
    cases a with
    | nil =>
      constructor
      · rintro ⟨hp, hv⟩
        refine ⟨⟨fun hu => (hp hu).1, by simp⟩, fun hu => (hp hu).2, ?_⟩
        rintro - u' v ⟨⟩
        exact hv v
      · rintro ⟨⟨hp, -⟩, hb, hv⟩
        exact ⟨fun hu => ⟨hp hu, hb hu⟩, fun v => hv rfl u v rfl⟩
    | cons w a =>
      constructor
      · rintro ⟨hp, hv⟩
        exact ⟨⟨fun hu => (hp hu).1, hv⟩, fun hu => (hp hu).2, by simp⟩
      · rintro ⟨⟨hp, hv⟩, hb, -⟩
        exact ⟨fun hu => ⟨hp hu, hb hu⟩, hv⟩

theorem flatMap_written_eq_nil_iff {es : List Element} : es.flatMap written = [] ↔ es = [] := by
  cases es with
  | nil => simp
  | cons e es => simp [e.written_ne_nil]

theorem meets_nil (t : Text) : Meets [] t := ⟨by simp, by simp⟩

theorem meets_cons_iff {e : Element} {es : List Element} {t : Text} :
    Meets (e :: es) t ↔ Meets es t ∧ (e = single Text.percent → Text.percent ∉ t) ∧
      (es = [] → ∀ u v, e = single u → t.head? = some v → ¬isPair u v) := by
  constructor
  · intro h
    refine ⟨⟨?_, ?_⟩, ?_, ?_⟩
    · intro hp
      exact h.percent (List.mem_cons_of_mem e hp)
    · intro u v hu
      apply h.last u v
      rw [List.getLast?_cons, hu]
      rfl
    · rintro rfl
      exact h.percent List.mem_cons_self
    · rintro rfl u v rfl
      exact h.last u v rfl
  · rintro ⟨h, hp, hl⟩
    refine ⟨?_, ?_⟩
    · intro hmem
      rcases List.mem_cons.1 hmem with he | he
      · exact hp he.symm
      · exact h.percent he
    · intro u v hu
      cases es with
      | nil => exact hl rfl u v (by simpa using hu)
      | cons e' es => exact h.last u v (by rwa [List.getLast?_cons_cons] at hu)

/-- Rows put together are coherent exactly if both of them are and nothing happens at the seam. -/
theorem coherent_append_iff {es es' : List Element} :
    Coherent (es ++ es') ↔ Coherent es ∧ Coherent es' ∧ Meets es (es'.flatMap written) := by
  induction es with
  | nil => simp [Coherent, meets_nil]
  | cons e es ih =>
    rw [List.cons_append, Coherent, Coherent, List.flatMap_append, fits_append_iff,
      flatMap_written_eq_nil_iff, ih, meets_cons_iff]
    tauto

theorem elements_append {a b : Text} (h : Meets a.elements b) :
    Text.elements (a ++ b) = a.elements ++ b.elements := by
  have hc : Coherent (a.elements ++ b.elements) := by
    apply coherent_append_iff.2
    refine ⟨coherent_elements a, coherent_elements b, ?_⟩
    rwa [flatMap_written_elements]
  have he := elements_flatMap_written hc
  rwa [List.flatMap_append, flatMap_written_elements, flatMap_written_elements] at he

theorem exists_append_of_elements {t : Text} {es es' : List Element} (h : t.elements = es ++ es') :
    ∃ a b, t = a ++ b ∧ a.elements = es ∧ b.elements = es' ∧ Meets es b := by
  have hc := coherent_elements t
  rw [h] at hc
  obtain ⟨ha, hb, hm⟩ := coherent_append_iff.1 hc
  refine ⟨_, _, ?_, elements_flatMap_written ha, elements_flatMap_written hb, hm⟩
  rw [← List.flatMap_append, ← h, flatMap_written_elements]

theorem not_isPair_of_eq {u v : UInt16} (h : v = Text.percent ∨ v = Text.space) : ¬isPair u v := by
  intro hp
  rcases isPair_iff.1 hp with ⟨-, rfl⟩ | ⟨-, rfl | rfl⟩ <;> revert h <;> decide

theorem percent_notMem_of_isPair {u v : UInt16} (h : isPair u v) : Text.percent ∉ [u, v] := by
  intro hmem
  rcases List.mem_cons.1 hmem with hu | hv
  · exact ne_percent_of_isPair h hu.symm
  · exact not_isPair_of_eq (.inl (List.mem_singleton.1 hv).symm) h

/-- A percent sign is on its own exactly if there is an odd number of them. -/
theorem single_percent_mem_iff_odd (t : Text) :
    single Text.percent ∈ t.elements ↔ Odd (t.count Text.percent) := by
  induction t using induction_on with
  | nil => simp [elements_nil]
  | next t e rest h ih =>
    obtain ⟨rfl, hf⟩ := next?_eq_some_iff.1 h
    rw [elements_of_next? h, List.mem_cons, ih, List.count_append]
    cases e with
    | reference name =>
      have hname : (reference name).written.count Text.percent = 2 := by
        simp [written, List.count_eq_zero.2 hf]
      rw [hname, Nat.odd_add']
      simp
    | pair u v =>
      have hpair : (pair u v).written.count Text.percent = 0 :=
        List.count_eq_zero.2 (percent_notMem_of_isPair hf)
      simp [hpair]
    | single u =>
      by_cases hu : u = Text.percent
      · have hrest : rest.count Text.percent = 0 := List.count_eq_zero.2 (hf.1 hu)
        simp [hu, hrest, written]
      · have hsingle : (single u).written.count Text.percent = 0 :=
          List.count_eq_zero.2 (by simpa [written] using Ne.symm hu)
        simp [hsingle, Ne.symm hu]

/-- Every percent sign of a text with an even number of them belongs to a reference, so that it does
not look behind the text. -/
theorem meets_of_even {a b : Text} (ha : Even (a.count Text.percent) ∨ Text.percent ∉ b)
    (hb : ∀ v ∈ b.head?, v = Text.percent ∨ v = Text.space) : Meets a.elements b := by
  refine ⟨?_, ?_⟩
  · intro hp
    apply ha.resolve_left
    rw [Nat.not_even_iff_odd]
    exact (single_percent_mem_iff_odd a).1 hp
  · intro u v _ hv
    exact not_isPair_of_eq (hb v hv)

end Element

end CommandText
