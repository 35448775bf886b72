import CommandText.Proofs.Reading
import CommandText.Lookup.Basic

/-!
# Elements of a command text

The smallest parts that a command text is read in: a reference to a variable, two units that stand
for the second of them, or a unit on its own. Which element a text starts with is decided by
`Element.next?`, and `Element.next?_eq_some_iff` says when without it: the text is the element as it
is written, followed by a rest that cannot change what the element is. A run takes elements as long
as none of them stops it.
-/

namespace CommandText

namespace Text

theorem cut?_append {sep : UInt16} {a : Text} (h : sep ∉ a) (b : Text) :
    cut? sep (a ++ sep :: b) = some (a, b) := by
  induction a with
  | nil => simp [cut?]
  | cons u a ih =>
    rw [List.mem_cons, not_or] at h
    simp [cut?, Ne.symm h.1, ih h.2]

theorem cut?_eq_none_iff {sep : UInt16} {t : Text} : cut? sep t = none ↔ sep ∉ t := by
  induction t with
  | nil => simp [cut?]
  | cons u t ih =>
    by_cases h : u = sep
    · simp [cut?, h]
    · simp [cut?, h, Ne.symm h, ih]

def afterSpaces (t : Text) : Text := t.dropWhile (· == space)

theorem afterSpaces_suffix (t : Text) : afterSpaces t <:+ t := List.dropWhile_suffix _

theorem head?_afterSpaces_ne (t : Text) : (afterSpaces t).head? ≠ some space := by
  induction t with
  | nil => simp [afterSpaces]
  | cons u t ih =>
    rw [afterSpaces, List.dropWhile_cons]
    split
    · exact ih
    · next h => simpa using h

theorem afterSpaces_eq_self {t : Text} (h : t.head? ≠ some space) : afterSpaces t = t := by
  cases t with
  | nil => rfl
  | cons u t =>
    have hu : ¬u = space := by simpa using h
    simp [afterSpaces, hu]

theorem afterSpaces_replicate_append (n : Nat) (t : Text) :
    afterSpaces (List.replicate n space ++ t) = afterSpaces t := by
  induction n with
  | zero => rfl
  | succ n ih =>
    rw [List.replicate_succ, List.cons_append, ← ih]
    simp [afterSpaces]

end Text

/-- The smallest parts that a command text is read in. -/
inductive Element where
  /-- A name between percent signs. -/
  | reference (name : Text)
  /-- Two units that stand for the second of them. -/
  | pair (first second : UInt16)
  /-- A unit that stands for itself. -/
  | single (u : UInt16)
  deriving DecidableEq

namespace Element

def written : Element → Text
  | reference name => Text.percent :: (name ++ [Text.percent])
  | pair u v => [u, v]
  | single u => [u]

/-- The text that the element stands for; a reference to an unknown name stands for itself. -/
def value (lookup : Lookup) : Element → Text
  | reference name => (lookup name).getD (reference name).written
  | pair _ v => [v]
  | single u => [u]

def single? : Element → Option UInt16
  | single u => some u
  | _ => none

/-- The pairs of units that stand for the second of them. -/
def isPair (u v : UInt16) : Bool :=
  (u == Text.caret && v == Text.caret) ||
    (u == Text.backslash && (v == Text.backslash || v == Text.quote))

/-- The element that a text starts with and the text behind it. A percent sign starts a reference if
another one follows anywhere in the text. -/
def next? : Text → Option (Element × Text)
  | [] => none
  | u :: t =>
    if u = Text.percent then
      match Text.cut? Text.percent t with
      | some (name, rest) => some (reference name, rest)
      | none => some (single u, t)
    else
      match t with
      | [] => some (single u, [])
      | v :: rest => if isPair u v then some (pair u v, rest) else some (single u, t)

/-- An element stands as such in front of a text. -/
def Fits (rest : Text) : Element → Prop
  | reference name => Text.percent ∉ name
  | pair u v => isPair u v
  | single u => (u = Text.percent → Text.percent ∉ rest) ∧ ∀ v ∈ rest.head?, ¬isPair u v

theorem eq_single_of_single? {e : Element} {u : UInt16} (h : e.single? = some u) :
    e = single u := by
  cases e <;> simp_all [single?]

theorem isPair_iff {u v : UInt16} :
    isPair u v ↔ u = Text.caret ∧ v = Text.caret ∨
      u = Text.backslash ∧ (v = Text.backslash ∨ v = Text.quote) := by
  simp [isPair]

theorem ne_percent_of_isPair {u v : UInt16} (h : isPair u v) : u ≠ Text.percent := by
  rcases isPair_iff.1 h with ⟨rfl, -⟩ | ⟨rfl, -⟩ <;> decide

/-- The units that end a term where they stand on their own. -/
def IsDelimiter (x : UInt16) : Prop := x = Text.space ∨ x = Text.quote

theorem isDelimiter_space : IsDelimiter Text.space := .inl rfl

theorem isDelimiter_quote : IsDelimiter Text.quote := .inr rfl

theorem IsDelimiter.ne_percent {x : UInt16} (h : IsDelimiter x) : x ≠ Text.percent := by
  rcases h with rfl | rfl <;> decide

theorem IsDelimiter.not_isPair {x : UInt16} (h : IsDelimiter x) (v : UInt16) : ¬isPair x v := by
  rcases h with rfl | rfl <;> simp only [isPair_iff] <;> rintro (⟨h, -⟩ | ⟨h, -⟩) <;>
    exact absurd h (by decide)

theorem next?_eq_none_iff {t : Text} : next? t = none ↔ t = [] := by
  cases t with
  | nil => simp [next?]
  | cons u t =>
    unfold next?
    dsimp only
    split_ifs
    · cases Text.cut? Text.percent t <;> simp
    · cases t with
      | nil => simp
      | cons v rest => by_cases h : isPair u v <;> simp [h]

/-- A text starts with an element exactly if the element is written there and fits in front of what
follows. -/
theorem next?_eq_some_iff {t rest : Text} {e : Element} :
    next? t = some (e, rest) ↔ t = e.written ++ rest ∧ e.Fits rest := by
  constructor
  · intro h
    cases t with
    | nil => simp [next?] at h
    | cons u t =>
      unfold next? at h
      dsimp only at h
      split_ifs at h with hu
      · cases hc : Text.cut? Text.percent t with
        | none =>
          simp only [hc, Option.some.injEq, Prod.mk.injEq] at h
          obtain ⟨rfl, rfl⟩ := h
          refine ⟨rfl, ?_, ?_⟩
          · intro _
            exact Text.cut?_eq_none_iff.1 hc
          · intro v _ hv
            exact ne_percent_of_isPair hv hu
        | some found =>
          obtain ⟨name, last⟩ := found
          simp only [hc, Option.some.injEq, Prod.mk.injEq] at h
          obtain ⟨rfl, rfl⟩ := h
          obtain ⟨ht, hn⟩ := Text.cut?_eq_some hc
          exact ⟨by simp [written, hu, ht], hn⟩
      · cases t with
        | nil =>
          simp only [Option.some.injEq, Prod.mk.injEq] at h
          obtain ⟨rfl, rfl⟩ := h
          exact ⟨rfl, fun h => absurd h hu, by simp⟩
        | cons v t =>
          dsimp only at h
          split_ifs at h with hp
          · simp only [Option.some.injEq, Prod.mk.injEq] at h
            obtain ⟨rfl, rfl⟩ := h
            exact ⟨rfl, hp⟩
          · simp only [Option.some.injEq, Prod.mk.injEq] at h
            obtain ⟨rfl, rfl⟩ := h
            exact ⟨rfl, fun h => absurd h hu, by simpa using hp⟩
  · rintro ⟨rfl, hf⟩
    cases e with
    | reference name =>
      simp [written, next?, Text.cut?_append hf]
    | pair u v =>
      have hu : u ≠ Text.percent := ne_percent_of_isPair hf
      have hp : isPair u v = true := hf
      simp [written, next?, hu, hp]
    | single u =>
      obtain ⟨hr, hp⟩ := hf
      by_cases hu : u = Text.percent
      · simp [written, next?, hu, Text.cut?_eq_none_iff.2 (hr hu)]
      · cases rest with
        | nil => simp [written, next?, hu]
        | cons v rest =>
          have hv : ¬isPair u v = true := hp v (by simp)
          simp [written, next?, hu, hv]

theorem written_ne_nil (e : Element) : e.written ≠ [] := by
  cases e <;> simp [written]

theorem length_lt_of_next? {t rest : Text} {e : Element} (h : next? t = some (e, rest)) :
    rest.length < t.length := by
  obtain ⟨rfl, -⟩ := next?_eq_some_iff.1 h
  have := List.length_pos_iff.2 e.written_ne_nil
  rw [List.length_append]
  omega

theorem head?_eq_some_iff {t rest : Text} {e : Element} {x : UInt16} (hx : IsDelimiter x)
    (h : next? t = some (e, rest)) : t.head? = some x ↔ e = single x := by
  obtain ⟨rfl, hf⟩ := next?_eq_some_iff.1 h
  cases e with
  | reference name => simp [written, hx.ne_percent.symm]
  | pair u v =>
    have hu : u ≠ x := by
      rintro rfl
      exact hx.not_isPair v hf
    simp [written, hu]
  | single u => simp [written]

theorem next?_delimiter {x : UInt16} (hx : IsDelimiter x) (t : Text) :
    next? (x :: t) = some (single x, t) := by
  apply next?_eq_some_iff.2
  refine ⟨rfl, ?_, ?_⟩
  · intro h
    exact absurd h hx.ne_percent
  · intro v _
    exact hx.not_isPair v

theorem next?_of_append {a b c : Text} {e : Element} (h : next? (a ++ c) = some (e, b ++ c)) :
    next? a = some (e, b) := by
  obtain ⟨ht, hf⟩ := next?_eq_some_iff.1 h
  rw [← List.append_assoc] at ht
  refine next?_eq_some_iff.2 ⟨List.append_cancel_right ht, ?_⟩
  cases e with
  | reference name => exact hf
  | pair u v => exact hf
  | single u =>
    constructor
    · intro hu hb
      exact hf.1 hu (List.mem_append_left _ hb)
    · intro v hv
      apply hf.2 v
      cases b with
      | nil => simp at hv
      | cons w b => simpa using hv

/-- What holds of the empty text, and of a text if it holds behind the element that it starts with,
holds of every text. -/
@[elab_as_elim]
theorem induction_on {motive : Text → Prop} (t : Text) (nil : motive [])
    (next : ∀ t e rest, next? t = some (e, rest) → motive rest → motive t) : motive t := by
  induction hn : t.length using Nat.strong_induction_on generalizing t with
  | _ n ih =>
    cases ht : next? t with
    | none => exact next?_eq_none_iff.1 ht ▸ nil
    | some found =>
      exact next t found.1 found.2 ht (ih _ (hn ▸ length_lt_of_next? ht) found.2 rfl)

/-- Takes elements off a text until one of them stops the run. -/
def run (stops : Element → Bool) (t : Text) : List Element × Text :=
  match _h : next? t with
  | none => ([], t)
  | some (e, rest) =>
    if stops e then ([], t) else (e :: (run stops rest).1, (run stops rest).2)
termination_by t.length
decreasing_by all_goals exact length_lt_of_next? ‹_›

section Run

variable {stops : Element → Bool} {t rest : Text} {e : Element}

theorem run_nil (stops : Element → Bool) : run stops [] = ([], []) := by
  unfold run
  rfl

theorem run_of_stops (h : next? t = some (e, rest)) (hs : stops e) : run stops t = ([], t) := by
  unfold run
  split
  · rfl
  · next e' rest' h' =>
    obtain ⟨rfl, rfl⟩ : e' = e ∧ rest' = rest := by simpa [h] using h'.symm
    rw [if_pos hs]

theorem run_of_not_stops (h : next? t = some (e, rest)) (hs : ¬stops e) :
    run stops t = (e :: (run stops rest).1, (run stops rest).2) := by
  rw [run.eq_def]
  split
  · next h' => simp [h] at h'
  · next e' rest' h' =>
    obtain ⟨rfl, rfl⟩ : e' = e ∧ rest' = rest := by simpa [h] using h'.symm
    rw [if_neg hs]

theorem stops_of_next?_run (h : next? (run stops t).2 = some (e, rest)) : stops e := by
  induction t using induction_on with
  | nil => simp [run_nil, next?] at h
  | next t e' rest' ht ih =>
    by_cases hs : stops e'
    · rw [run_of_stops ht hs, ht] at h
      simp only [Option.some.injEq, Prod.mk.injEq] at h
      exact h.1 ▸ hs
    · rw [run_of_not_stops ht hs] at h
      exact ih h

theorem run_suffix (stops : Element → Bool) (t : Text) : (run stops t).2 <:+ t := by
  induction t using induction_on with
  | nil => simp [run_nil]
  | next t e rest ht ih =>
    by_cases hs : stops e
    · simp [run_of_stops ht hs]
    · rw [run_of_not_stops ht hs]
      exact ih.trans ⟨e.written, (next?_eq_some_iff.1 ht).1.symm⟩

end Run

/-- The elements on their own that stop a run, given by their units. -/
def endsAt (units : List UInt16) (e : Element) : Bool := units.any fun u => e == single u

abbrev endsQuoted : Element → Bool := endsAt [Text.quote]

abbrev endsBare : Element → Bool := endsAt [Text.quote, Text.space]

theorem not_endsBare_of_afterSpaces {t rest : Text} {e : Element}
    (h : next? t.afterSpaces = some (e, rest)) (hq : e ≠ single Text.quote) : ¬endsBare e := by
  have hs : e ≠ single Text.space := by
    intro he
    exact t.head?_afterSpaces_ne ((head?_eq_some_iff isDelimiter_space h).2 he)
  simp [endsAt, hq, hs]

theorem eq_quote_of_run {t rest : Text} {u : UInt16}
    (h : (run endsQuoted t).2 = u :: rest) : u = Text.quote := by
  cases hn : next? (u :: rest) with
  | none => simp [next?_eq_none_iff] at hn
  | some found =>
    have he := stops_of_next?_run (h ▸ hn)
    have hq : found.1 = single Text.quote := by simpa [endsAt] using he
    simpa using (head?_eq_some_iff isDelimiter_quote hn).2 hq

end Element

end CommandText
