import CommandText.Proofs.Reading

/-!
# Parsers see only their window

A parser that runs at a window of a text does what it does on the units of the window alone, with
all offsets moved by the start of the window. The value and the description of a failure are the
same, and nothing before or behind the window has a part in them. The end of the window is told by
its offsets and not by the unit that is found there, so the null unit is a unit like any other.
-/

namespace CommandText

namespace Cursor

/-- The second cursor shows the units that the first one shows, a number of units further on. -/
structure Shifted (n : Nat) (c d : Cursor) : Prop where
  ahead : d.ahead = c.ahead
  start : d.start = n + c.start

namespace Shifted

variable {n : Nat} {c d : Cursor}

theorem remaining (h : c.Shifted n d) : d.remaining = c.remaining := by
  rw [← length_ahead, ← length_ahead, h.ahead]

theorem stop (h : c.Shifted n d) : d.stop = n + c.stop := by
  have hr := h.remaining
  have hs := h.start
  have hc := c.start_le_stop
  have hd := d.start_le_stop
  unfold Cursor.remaining at hr
  omega

theorem next?_eq_none (h : c.Shifted n d) (hc : c.next? = none) : d.next? = none := by
  rw [next?_eq_none_iff, ← ahead_eq_nil_iff] at hc ⊢
  rw [h.ahead, hc]

theorem next?_eq_some {u : UInt16} {c' : Cursor} (h : c.Shifted n d)
    (hc : c.next? = some (u, c')) : ∃ d', d.next? = some (u, d') ∧ c'.Shifted n d' := by
  obtain ⟨hahead, -, -, hstart⟩ := Cursor.next?_eq_some hc
  cases hd : d.next? with
  | none =>
    have hnil := ahead_of_next?_eq_none hd
    rw [h.ahead, hahead] at hnil
    cases hnil
  | some next =>
    obtain ⟨hahead', -, -, hstart'⟩ := Cursor.next?_eq_some hd
    rw [h.ahead, hahead, List.cons.injEq] at hahead'
    refine ⟨next.2, by rw [hahead'.1], hahead'.2.symm, ?_⟩
    rw [hstart', hstart, h.start, Nat.add_assoc]

end Shifted

theorem ofText_ahead_shifted (c : Cursor) : (ofText c.ahead).Shifted c.start c := ⟨rfl, rfl⟩

theorem ahead_eq_of_getElem? {c d : Cursor} (hstart : d.start = c.start) (hstop : d.stop = c.stop)
    (h : ∀ i, c.start ≤ i → i < c.stop → d.text[i]? = c.text[i]?) : d.ahead = c.ahead := by
  rw [c.ahead_eq, d.ahead_eq, hstart, hstop]
  apply List.ext_getElem?
  intro i
  rw [List.getElem?_take, List.getElem?_take]
  split_ifs with hi
  · rw [List.getElem?_drop, List.getElem?_drop]
    exact h _ (by omega) (by omega)
  · rfl

theorem exists_next?_eq_some {c : Cursor} {u : UInt16} (h : c.start < c.stop)
    (hu : c.text[c.start]? = some u) : ∃ d, c.next? = some (u, d) := by
  have hhead : c.ahead.head? = some u := by
    rw [c.ahead_eq, List.head?_take, if_neg (by omega), List.head?_drop, hu]
  cases hc : c.next? with
  | none =>
    rw [ahead_of_next?_eq_none hc] at hhead
    cases hhead
  | some next =>
    rw [(Cursor.next?_eq_some hc).1, List.head?_cons, Option.some.injEq] at hhead
    exact ⟨next.2, by rw [← hhead]⟩

end Cursor

/-- What an outcome says apart from the text that it is about: a value with the offsets of what is
left, or an offset with what was expected there. -/
inductive Answer (α : Type) where
  | found (value : α) (start stop : Nat)
  | missed (pos : Nat) (expected : Text)

namespace Answer

variable {α : Type}

def shift (n : Nat) : Answer α → Answer α
  | found value start stop => found value (n + start) (n + stop)
  | missed pos expected => missed (n + pos) expected

theorem shift_zero (a : Answer α) : a.shift 0 = a := by
  cases a <;> simp [shift]

end Answer

namespace Outcome

variable {α β : Type}

def answer : Outcome α → Answer α
  | success value rest => .found value rest.start rest.stop
  | failure pos expected => .missed pos expected

/-- Two outcomes are the same but for their places, which lie a number of units apart. -/
def Shifted (n : Nat) : Outcome α → Outcome α → Prop
  | success v rest, success w last => w = v ∧ rest.Shifted n last
  | failure pos expected, failure pos' expected' => pos' = n + pos ∧ expected' = expected
  | _, _ => False

variable {n : Nat} {o o' : Outcome α}

theorem Shifted.map (f : α → β) (h : o.Shifted n o') : (o.map f).Shifted n (o'.map f) := by
  cases o <;> cases o' <;> simp_all [Shifted, Outcome.map]

theorem Shifted.answer (h : o.Shifted n o') : o'.answer = o.answer.shift n := by
  cases o with
  | success v rest =>
    cases o' with
    | success w last =>
      obtain ⟨rfl, hrest⟩ := h
      simp only [Outcome.answer, Answer.shift, hrest.start, hrest.stop]
    | failure pos expected => exact h.elim
  | failure pos expected =>
    cases o' with
    | success w last => exact h.elim
    | failure pos' expected' =>
      obtain ⟨rfl, rfl⟩ := h
      rfl

theorem Shifted.exists_success {v : α} {rest : Cursor} (h : (success v rest).Shifted n o') :
    ∃ last, o' = success v last ∧ rest.Shifted n last := by
  cases o' with
  | success w last => exact ⟨last, by rw [h.1], h.2⟩
  | failure pos expected => exact h.elim

theorem Shifted.eq_failure {pos : Nat} {expected : Text}
    (h : (failure pos expected : Outcome α).Shifted n o') : o' = failure (n + pos) expected := by
  cases o' with
  | success w last => exact h.elim
  | failure pos' expected' => rw [h.1, h.2]

end Outcome

namespace Peg

variable {α β : Type} {n : Nat}

theorem iterate_shifted {step : Cursor → Outcome α}
    (hstep : ∀ {c d : Cursor}, c.Shifted n d → (step c).Shifted n (step d)) {c d : Cursor}
    (h : c.Shifted n d) :
    (iterate step d).1 = (iterate step c).1 ∧
      (iterate step c).2.Shifted n (iterate step d).2 := by
  induction hm : c.remaining using Nat.strong_induction_on generalizing c d with
  | _ m ih =>
    have hcd := hstep h
    rw [iterate_eq step c, iterate_eq step d]
    cases hc : step c with
    | failure pos expected =>
      rw [hc] at hcd
      rw [hcd.eq_failure]
      exact ⟨rfl, h⟩
    | success v rest =>
      rw [hc] at hcd
      obtain ⟨last, hd, hrest⟩ := hcd.exists_success
      rw [hd]
      dsimp only
      rw [hrest.remaining, h.remaining]
      by_cases hlt : rest.remaining < c.remaining
      · obtain ⟨hv, hl⟩ := ih rest.remaining (hm ▸ hlt) hrest rfl
        rw [if_pos hlt, if_pos hlt]
        exact ⟨by rw [hv], hl⟩
      · rw [if_neg hlt, if_neg hlt]
        exact ⟨rfl, h⟩

/-- At cursors that show the same units a parser has the same outcome, at the same distance. -/
theorem parse_shifted (p : Peg α) {c d : Cursor} (h : c.Shifted n d) :
    (p.parse c).Shifted n (p.parse d) := by
  induction p generalizing c d with
  | any =>
    rw [parse, parse]
    cases hc : c.next? with
    | none =>
      rw [h.next?_eq_none hc]
      exact ⟨h.start, rfl⟩
    | some next =>
      obtain ⟨d', hd, hrest⟩ := h.next?_eq_some hc
      rw [hd]
      exact ⟨rfl, hrest⟩
  | unit u =>
    rw [parse, parse]
    cases hc : c.next? with
    | none =>
      rw [h.next?_eq_none hc]
      exact ⟨h.start, rfl⟩
    | some next =>
      obtain ⟨d', hd, hrest⟩ := h.next?_eq_some hc
      rw [hd]
      dsimp only
      split_ifs
      · exact ⟨rfl, hrest⟩
      · exact ⟨h.start, rfl⟩
  | seq p q ihp ihq =>
    have hp := ihp h
    rw [parse, parse]
    cases hc : p.parse c with
    | failure pos expected =>
      rw [hc] at hp
      rw [hp.eq_failure]
      exact ⟨rfl, rfl⟩
    | success a rest =>
      rw [hc] at hp
      obtain ⟨last, hd, hrest⟩ := hp.exists_success
      rw [hd]
      -- What is left lies at the same distance, so that `q` may fail there too.
      exact (ihq hrest).map fun b => (a, b)
  | alt p q ihp ihq =>
    have hp := ihp h
    have hq := ihq h
    rw [parse, parse]
    cases hc : p.parse c with
    | success a rest =>
      rw [hc] at hp
      obtain ⟨last, hd, hrest⟩ := hp.exists_success
      rw [hd]
      exact ⟨rfl, hrest⟩
    | failure pos expected =>
      rw [hc] at hp
      rw [hp.eq_failure]
      dsimp only
      cases hc' : q.parse c with
      | success a rest =>
        rw [hc'] at hq
        obtain ⟨last, hd, hrest⟩ := hq.exists_success
        rw [hd]
        exact ⟨rfl, hrest⟩
      | failure pos' expected' =>
        rw [hc'] at hq
        rw [hq.eq_failure]
        exact ⟨by omega, rfl⟩
  | except p excluded shown ihp ihe =>
    have he := ihe h
    rw [parse, parse]
    cases hc : excluded.parse c with
    | success b rest =>
      rw [hc] at he
      obtain ⟨last, hd, -⟩ := he.exists_success
      rw [hd]
      exact ⟨h.start, rfl⟩
    | failure pos expected =>
      rw [hc] at he
      rw [he.eq_failure]
      exact ihp h
  | many p ih =>
    rw [parse, parse]
    exact iterate_shifted ih h
  | many1 p ih =>
    have hp := ih h
    rw [parse, parse]
    cases hc : p.parse c with
    | failure pos expected =>
      rw [hc] at hp
      rw [hp.eq_failure]
      exact ⟨rfl, rfl⟩
    | success v rest =>
      rw [hc] at hp
      obtain ⟨last, hd, hrest⟩ := hp.exists_success
      rw [hd]
      dsimp only
      rw [hrest.remaining, h.remaining]
      split_ifs
      · obtain ⟨hv, hl⟩ := iterate_shifted ih hrest
        exact ⟨by rw [hv], hl⟩
      · exact ⟨rfl, h⟩
  | map f p ih =>
    rw [parse, parse]
    exact (ih h).map f

theorem answer_of_unit {c : Cursor} {u : UInt16} (h : c.start < c.stop)
    (hu : c.text[c.start]? = some u) :
    (any.parse c).answer = .found u (c.start + 1) c.stop ∧
      ((unit u).parse c).answer = .found u (c.start + 1) c.stop := by
  obtain ⟨d, hd⟩ := Cursor.exists_next?_eq_some h hu
  obtain ⟨-, -, hstop, hstart⟩ := Cursor.next?_eq_some hd
  constructor
  · rw [parse, hd]
    simp only [Outcome.answer, hstart, hstop]
  · rw [parse, hd]
    simp only [if_true, Outcome.answer, hstart, hstop]

theorem answer_of_end {c : Cursor} (h : c.start = c.stop) (u : UInt16) :
    c.peek 0 = Text.nul ∧ (any.parse c).answer = .missed c.start "any character" ∧
      ((unit u).parse c).answer = .missed c.start (Text.quoted [u]) := by
  have hnone : c.next? = none := by
    rw [c.next?_eq_none_iff, Cursor.isEnd, h, beq_self_eq_true]
  have hzero : c.remaining = 0 := by
    unfold Cursor.remaining
    omega
  refine ⟨?_, ?_, ?_⟩
  · unfold Cursor.peek
    rw [if_neg (by omega)]
  · rw [parse, hnone]
    rfl
  · rw [parse, hnone]
    rfl

/-- A parser at a window answers as on the slice of the text that the window shows, with the start
of the window added to all offsets. Hence it answers alike at the same window of any text with the
same units in it, and it takes the null unit for a unit wherever the window has one. -/
theorem answer_parse_eq_shift (p : Peg α) (c : Cursor) :
    (p.parse c).answer =
        (p.parse (Cursor.ofText ((c.text.drop c.start).take (c.stop - c.start)))).answer.shift
          c.start ∧
      (∀ v rest, p.parse c = .success v rest → rest.text = c.text) ∧
      (∀ d : Cursor, d.start = c.start → d.stop = c.stop →
        (∀ i, c.start ≤ i → i < c.stop → d.text[i]? = c.text[i]?) →
        (p.parse d).answer = (p.parse c).answer) ∧
      (c.start < c.stop → c.text[c.start]? = some Text.nul →
        (any.parse c).answer = .found Text.nul (c.start + 1) c.stop ∧
          ((unit Text.nul).parse c).answer = .found Text.nul (c.start + 1) c.stop) ∧
      (c.start = c.stop → c.peek 0 = Text.nul ∧
        (any.parse c).answer = .missed c.start "any character" ∧
          ((unit Text.nul).parse c).answer = .missed c.start (Text.quoted [Text.nul])) := by
  refine ⟨?_, ?_, ?_, ?_, ?_⟩
  · rw [← c.ahead_eq]
    exact (p.parse_shifted c.ofText_ahead_shifted).answer
  · intro v rest h
    have hwithin := p.parse_within c
    rw [h] at hwithin
    exact hwithin.text
  · intro d hstart hstop hunits
    have hshift : c.Shifted 0 d :=
      ⟨Cursor.ahead_eq_of_getElem? hstart hstop hunits, by rw [hstart, Nat.zero_add]⟩
    rw [(p.parse_shifted hshift).answer, Answer.shift_zero]
  · intro h hnul
    exact answer_of_unit h hnul
  · intro h
    exact answer_of_end h Text.nul

/-- The window on the null unit of `a`, null, `b` answers as the text of the null unit alone, one
unit further on, and so does the same window with other units around it. -/
theorem answer_parse_null_window :
    ((many any).parse (Cursor.window [0x61, Text.nul, 0x62] 1 2 (by decide) (by decide))).answer =
        .found [Text.nul] 2 2 ∧
      ((many any).parse (Cursor.window [Text.quote, Text.nul] 1 2 (by decide) (by decide))).answer =
        .found [Text.nul] 2 2 ∧
      (any.parse (Cursor.window [0x61, Text.nul, 0x62] 1 2 (by decide) (by decide))).answer =
        .found Text.nul 2 2 := by
  obtain ⟨hslice, -, houtside, hnull, -⟩ := answer_parse_eq_shift (many any)
    (Cursor.window [0x61, Text.nul, 0x62] 1 2 (by decide) (by decide))
  refine ⟨hslice, ?_, (hnull (by decide) rfl).1⟩
  have hother := houtside (Cursor.window [Text.quote, Text.nul] 1 2 (by decide) (by decide)) rfl rfl
  apply (hother ?_).trans hslice
  intro i hle hlt
  obtain rfl : i = 1 := Nat.le_antisymm (Nat.le_of_lt_succ hlt) hle
  rfl

end Peg

end CommandText
