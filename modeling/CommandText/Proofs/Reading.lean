import CommandText.Peg.Basic
import Mathlib.Data.Nat.Init
import Mathlib.Tactic.SplitIfs

/-!
# Reading a list of units

A parser runs at a cursor, but what it finds depends only on the units that the window still shows.
`Peg.read` runs the same parsers on a plain list of units and returns the value with the units that
are left. `Peg.found_parse` says that both runs find the same, at every cursor, and
`Peg.parse_within` that a run never leaves its window. Facts about a grammar are proved for `read`
and carried over to cursors by these two.
-/

namespace CommandText

namespace Cursor

/-- One cursor lies in the window of another, at its start or further on. -/
structure Behind (c d : Cursor) : Prop where
  text : d.text = c.text
  stop : d.stop = c.stop
  start : c.start ≤ d.start

namespace Behind

theorem refl (c : Cursor) : c.Behind c := ⟨rfl, rfl, Nat.le_refl _⟩

theorem trans {c d e : Cursor} (h : c.Behind d) (h' : d.Behind e) : c.Behind e :=
  ⟨h'.text.trans h.text, h'.stop.trans h.stop, Nat.le_trans h.start h'.start⟩

theorem start_eq {c d : Cursor} (h : c.Behind d) : d.start = c.stop - d.ahead.length := by
  have hd := d.start_le_stop
  rw [d.length_ahead, remaining, ← h.stop]
  omega

end Behind

theorem behind_of_next? {c d : Cursor} {u : UInt16} (h : c.next? = some (u, d)) : c.Behind d := by
  obtain ⟨-, ht, he, hs⟩ := next?_eq_some h
  exact ⟨ht, he, by omega⟩

theorem ahead_of_next?_eq_none {c : Cursor} (h : c.next? = none) : c.ahead = [] :=
  c.ahead_eq_nil_iff.2 (c.next?_eq_none_iff.1 h)

end Cursor

namespace Outcome

variable {α β : Type}

/-- The value found and the units left behind it, or nothing for a failure. -/
def found : Outcome α → Option (α × Text)
  | success value rest => some (value, rest.ahead)
  | failure _ _ => none

/-- A success goes on further on in the window, and a failure is reported inside it. -/
def Within (c : Cursor) : Outcome α → Prop
  | success _ rest => c.Behind rest
  | failure pos _ => c.start ≤ pos ∧ pos ≤ c.stop

theorem found_map (f : α → β) (o : Outcome α) :
    (o.map f).found = o.found.map fun (v, t) => (f v, t) := by
  cases o <;> rfl

theorem within_failure_start (c : Cursor) (expected : Text) :
    (failure c.start expected : Outcome α).Within c :=
  ⟨Nat.le_refl _, c.start_le_stop⟩

theorem within_map {c : Cursor} {f : α → β} {o : Outcome α} (h : o.Within c) :
    (o.map f).Within c := by
  cases o <;> exact h

theorem Within.mono {c d : Cursor} {o : Outcome α} (hd : c.Behind d) (h : o.Within d) :
    o.Within c := by
  cases o with
  | success v rest => exact hd.trans h
  | failure pos expected => exact ⟨Nat.le_trans hd.start h.1, hd.stop ▸ h.2⟩

end Outcome

namespace Peg

variable {α β : Type}

/-- Repeats a step on a list of units while it succeeds and shortens the list. -/
def repeated (step : Text → Option (α × Text)) (t : Text) : List α × Text :=
  match step t with
  | some (v, rest) =>
    if rest.length < t.length then
      let (vs, last) := repeated step rest
      (v :: vs, last)
    else ([], t)
  | none => ([], t)
termination_by t.length

theorem repeated_of_none {step : Text → Option (α × Text)} {t : Text} (h : step t = none) :
    repeated step t = ([], t) := by
  rw [repeated, h]

theorem repeated_of_some {step : Text → Option (α × Text)} {t rest : Text} {v : α}
    (h : step t = some (v, rest)) (hlt : rest.length < t.length) :
    repeated step t = (v :: (repeated step rest).1, (repeated step rest).2) := by
  rw [repeated, h]
  simp only [if_pos hlt]

theorem repeated_of_not_shorter {step : Text → Option (α × Text)} {t rest : Text} {v : α}
    (h : step t = some (v, rest)) (hlt : ¬rest.length < t.length) :
    repeated step t = ([], t) := by
  rw [repeated, h]
  simp only [if_neg hlt]

def read : {α : Type} → Peg α → Text → Option (α × Text)
  | _, any, t =>
    match t with
    | [] => none
    | u :: rest => some (u, rest)
  | _, unit u, t =>
    match t with
    | [] => none
    | v :: rest => if v = u then some (v, rest) else none
  | _, seq p q, t =>
    match read p t with
    | some (a, rest) => (read q rest).map fun (b, last) => ((a, b), last)
    | none => none
  | _, alt p q, t =>
    match read p t with
    | some found => some found
    | none => read q t
  | _, except p excluded _, t =>
    match read excluded t with
    | some _ => none
    | none => read p t
  | _, many p, t => some (repeated (read p) t)
  | _, many1 p, t =>
    match read p t with
    | some (v, rest) =>
      if rest.length < t.length then
        let (vs, last) := repeated (read p) rest
        some (v :: vs, last)
      else some ([v], t)
    | none => none
  | _, map f p, t => (read p t).map fun (v, rest) => (f v, rest)

theorem length_repeated_le (step : Text → Option (α × Text)) (t : Text) :
    (repeated step t).2.length ≤ t.length := by
  fun_induction repeated step t with
  | case1 t v rest hs hlt vs last hr ih =>
    rw [hr] at ih
    dsimp only at ih ⊢
    omega
  | case2 t v rest hs hlt => exact Nat.le_refl _
  | case3 t hs => exact Nat.le_refl _

theorem repeated_map (f : α → β) (step : Text → Option (α × Text)) (t : Text) :
    repeated (fun t => (step t).map fun (v, rest) => (f v, rest)) t =
      ((repeated step t).1.map f, (repeated step t).2) := by
  fun_induction repeated step t with
  | case1 t v rest hs hlt vs last hr ih =>
    rw [repeated_of_some (by rw [hs]; rfl) hlt, ih, hr]
    rfl
  | case2 t v rest hs hlt => rw [repeated_of_not_shorter (by rw [hs]; rfl) hlt]; rfl
  | case3 t hs => rw [repeated_of_none (by rw [hs]; rfl)]; rfl

theorem read_unit_cons (x u : UInt16) (t : Text) :
    (unit x).read (u :: t) = if u = x then some (u, t) else none := rfl

theorem read_alt (p q : Peg α) (t : Text) : (alt p q).read t = (p.read t).or (q.read t) := by
  rw [read]
  cases p.read t <;> rfl

theorem read_except (p : Peg α) (excluded : Peg β) (shown : β → Text) (t : Text) :
    (except p excluded shown).read t = if (excluded.read t).isSome then none else p.read t := by
  rw [read]
  cases excluded.read t <;> rfl

theorem read_between {γ : Type} (opening : Peg α) (p : Peg β) (closing : Peg γ) (t : Text) :
    (between opening p closing).read t =
      (opening.read t).bind fun (_, t₁) => (p.read t₁).bind fun (v, t₂) =>
        (closing.read t₂).map fun (_, t₃) => (v, t₃) := by
  simp only [between, fst, snd, read]
  cases opening.read t with
  | none => rfl
  | some found =>
    dsimp only [Option.bind_some]
    cases p.read found.2 with
    | none => rfl
    | some found' =>
      dsimp only [Option.bind_some, Option.map_some]
      cases closing.read found'.2 <;> rfl

theorem read_many1_of_some {p : Peg α} {t rest : Text} {v : α} (h : p.read t = some (v, rest))
    (hlt : rest.length < t.length) : (many1 p).read t = some (repeated p.read t) := by
  rw [read, h, repeated_of_some h hlt]
  simp only [if_pos hlt]

theorem read_many1_of_none {p : Peg α} {t : Text} (h : p.read t = none) :
    (many1 p).read t = none := by
  rw [read, h]

theorem read_joined_many (p : Peg Text) (t : Text) :
    (joined (many p)).read t = some ((repeated p.read t).1.flatten, (repeated p.read t).2) := by
  rw [joined, read, read]
  rfl

section Repetition

variable {step : Cursor → Outcome α} {next : Text → Option (α × Text)}

theorem iterate_eq_repeated (h : ∀ c, (step c).found = next c.ahead) (c : Cursor) :
    (iterate step c).1 = (repeated next c.ahead).1 ∧
      (iterate step c).2.ahead = (repeated next c.ahead).2 := by
  induction hn : c.remaining using Nat.strong_induction_on generalizing c with
  | _ n ih =>
    have hc := h c
    rw [iterate_eq]
    cases hs : step c with
    | failure pos expected =>
      rw [hs] at hc
      rw [repeated_of_none hc.symm]
      exact ⟨rfl, rfl⟩
    | success v rest =>
      rw [hs] at hc
      dsimp only
      by_cases hlt : rest.remaining < c.remaining
      · have hr := ih rest.remaining (hn ▸ hlt) rest rfl
        rw [if_pos hlt, repeated_of_some hc.symm (by simpa only [Cursor.length_ahead] using hlt)]
        exact ⟨by rw [hr.1], hr.2⟩
      · rw [if_neg hlt,
          repeated_of_not_shorter hc.symm (by simpa only [Cursor.length_ahead] using hlt)]
        exact ⟨rfl, rfl⟩

theorem behind_iterate (h : ∀ c, (step c).Within c) (c : Cursor) : c.Behind (iterate step c).2 := by
  induction hn : c.remaining using Nat.strong_induction_on generalizing c with
  | _ n ih =>
    have hc := h c
    rw [iterate_eq]
    cases hs : step c with
    | failure pos expected => exact Cursor.Behind.refl c
    | success v rest =>
      rw [hs] at hc
      dsimp only
      by_cases hlt : rest.remaining < c.remaining
      · rw [if_pos hlt]
        exact Cursor.Behind.trans hc (ih rest.remaining (hn ▸ hlt) rest rfl)
      · rw [if_neg hlt]
        exact Cursor.Behind.refl c

end Repetition

/-- A parser finds at a cursor what it finds in the units ahead of the cursor. -/
theorem found_parse (p : Peg α) (c : Cursor) : (p.parse c).found = p.read c.ahead := by
  induction p generalizing c with
  | any =>
    rw [parse]
    cases h : c.next? with
    | none =>
      rw [Cursor.ahead_of_next?_eq_none h]
      rfl
    | some next =>
      rw [(Cursor.next?_eq_some h).1]
      rfl
  | unit u =>
    rw [parse]
    cases h : c.next? with
    | none =>
      rw [Cursor.ahead_of_next?_eq_none h]
      rfl
    | some next =>
      rw [(Cursor.next?_eq_some h).1, read]
      dsimp only
      split_ifs <;> rfl
  | seq p q ihp ihq =>
    rw [parse, read, ← ihp c]
    cases h : p.parse c with
    | failure pos expected => rfl
    | success a rest =>
      simp only [Outcome.found_map, ihq rest]
      rfl
  | alt p q ihp ihq =>
    rw [parse, read, ← ihp c, ← ihq c]
    cases h : p.parse c with
    | success a rest => rfl
    | failure pos expected => cases hq : q.parse c <;> rfl
  | except p excluded shown ihp ihe =>
    rw [parse, read, ← ihp c, ← ihe c]
    cases h : excluded.parse c <;> rfl
  | many p ih =>
    obtain ⟨hv, hr⟩ := iterate_eq_repeated ih c
    rw [parse, read]
    simp only [Outcome.found, hv, hr]
  | many1 p ih =>
    rw [parse, read, ← ih c]
    cases h : p.parse c with
    | failure pos expected => rfl
    | success v rest =>
      obtain ⟨hv, hr⟩ := iterate_eq_repeated ih rest
      dsimp only [Outcome.found]
      rw [Cursor.length_ahead, Cursor.length_ahead]
      split_ifs
      · simp only [hv, hr]
      · rfl
  | map f p ih => rw [parse, read, Outcome.found_map, ih c]

/-- A parser stays in the window that it is run at. -/
theorem parse_within (p : Peg α) (c : Cursor) : (p.parse c).Within c := by
  induction p generalizing c with
  | any =>
    rw [parse]
    cases h : c.next? with
    | none => exact Outcome.within_failure_start c _
    | some next => exact Cursor.behind_of_next? h
  | unit u =>
    rw [parse]
    cases h : c.next? with
    | none => exact Outcome.within_failure_start c _
    | some next =>
      dsimp only
      split
      · exact Cursor.behind_of_next? h
      · exact Outcome.within_failure_start c _
  | seq p q ihp ihq =>
    have hp := ihp c
    rw [parse]
    cases h : p.parse c with
    | failure pos expected => rwa [h] at hp
    | success a rest =>
      rw [h] at hp
      exact Outcome.Within.mono hp (Outcome.within_map (ihq rest))
  | alt p q ihp ihq =>
    have hp := ihp c
    have hq := ihq c
    rw [parse]
    cases h : p.parse c with
    | success a rest => rwa [h] at hp
    | failure pos expected =>
      cases h' : q.parse c with
      | success a rest => rwa [h'] at hq
      | failure pos' expected' =>
        rw [h] at hp
        rw [h'] at hq
        constructor
        · exact Nat.le_trans hp.1 (Nat.le_max_left _ _)
        · exact Nat.max_le.2 ⟨hp.2, hq.2⟩
  | except p excluded shown ihp ihe =>
    rw [parse]
    cases h : excluded.parse c with
    | success b rest => exact Outcome.within_failure_start c _
    | failure pos expected => exact ihp c
  | many p ih =>
    rw [parse]
    exact behind_iterate ih c
  | many1 p ih =>
    have hp := ih c
    rw [parse]
    cases h : p.parse c with
    | failure pos expected => rwa [h] at hp
    | success v rest =>
      rw [h] at hp
      dsimp only
      split
      · exact hp.trans (behind_iterate ih rest)
      · exact Cursor.Behind.refl c
  | map f p ih =>
    rw [parse]
    exact Outcome.within_map (ih c)

theorem behind_of_parse {p : Peg α} {c rest : Cursor} {v : α} (h : p.parse c = .success v rest) :
    c.Behind rest := by
  have hw := p.parse_within c
  rwa [h] at hw

theorem parse_of_read {p : Peg α} {c : Cursor} {v : α} {t : Text}
    (h : p.read c.ahead = some (v, t)) :
    ∃ rest, p.parse c = .success v rest ∧ rest.ahead = t ∧ rest.start = c.stop - t.length := by
  have hf := p.found_parse c
  have hw := p.parse_within c
  rw [h] at hf
  cases ho : p.parse c with
  | failure pos expected =>
    rw [ho] at hf
    cases hf
  | success w rest =>
    rw [ho] at hf hw
    cases hf
    exact ⟨rest, rfl, rfl, Cursor.Behind.start_eq hw⟩

end Peg

end CommandText
