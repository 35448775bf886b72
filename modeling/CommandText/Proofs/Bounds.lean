import CommandText.Proofs.Reading

/-!
# Runs with checked moves

`Peg.parse` goes along cursors that are valid by their type, and its repetitions stop at the latest
where the window ends. `Peg.execute` relies on neither. Every move checks its distance and the
window it makes, and a repetition goes on until its parser fails or stands still, so that a run may
end in a bounds error or not end at all. The rounds that each repetition may take are counted to
tell a run that does not end. Neither happens: `Peg.execute_eq_parse`.
-/

namespace CommandText

/-- A result or a bounds error, and nothing at all for a run that was cut off. -/
abbrev Checked := ExceptT BoundsError Option

namespace Cursor

/-- A move with its checks: on the distance, and on the offsets of the window that it makes. -/
def move (c : Cursor) (distance : Int) : Checked Cursor := do
  let d ← c.advance distance
  ofRange d.text d.start d.stop

def yield {α : Type} (c : Cursor) (v : α) (distance : Int) : Checked (Outcome α) := do
  let rest ← c.move distance
  return .success v rest

theorem ofRange_self (c : Cursor) : ofRange c.text c.start c.stop = .ok c := by
  have h₁ := c.start_le_stop
  have h₂ := c.stop_le_length
  unfold ofRange
  rw [dif_pos (by omega)]
  apply congrArg Except.ok
  ext1 <;> simp [window]

theorem move_of_advance {c d : Cursor} {distance : Int} (h : c.advance distance = .ok d) :
    c.move distance = pure d := by
  unfold move
  rw [h]
  change (liftM (ofRange d.text d.start d.stop) : Checked Cursor) = pure d
  rw [ofRange_self]
  rfl

theorem advance_zero (c : Cursor) : c.advance 0 = .ok c := by
  unfold advance
  rw [dif_pos (by omega)]
  apply congrArg Except.ok
  ext1 <;> simp [skip]

theorem move_zero (c : Cursor) : c.move 0 = pure c := move_of_advance c.advance_zero

theorem yield_zero {α : Type} (c : Cursor) (v : α) : c.yield v 0 = pure (.success v c) := by
  unfold yield
  rw [move_zero, pure_bind]

theorem yield_one {α : Type} {c d : Cursor} {u : UInt16} (h : c.next? = some (u, d)) (v : α) :
    c.yield v 1 = pure (.success v d) := by
  unfold yield
  rw [move_of_advance (advance_of_next? h).2, pure_bind]

theorem not_isEnd_of_next? {c d : Cursor} {u : UInt16} (h : c.next? = some (u, d)) :
    ¬c.isEnd := by
  rw [← next?_eq_none_iff, h]
  simp

theorem Behind.remaining_le {c d : Cursor} (h : c.Behind d) : d.remaining ≤ c.remaining := by
  have hs := h.start
  have he := h.stop
  unfold remaining
  omega

theorem Behind.remaining_lt_iff {c d : Cursor} (h : c.Behind d) :
    d.remaining < c.remaining ↔ d.start ≠ c.start := by
  have hs := h.start
  have he := h.stop
  have hd := d.start_le_stop
  unfold remaining
  omega

end Cursor

namespace Peg

variable {α β : Type}

/-- Repeats a step until it fails or stands still. The repetition is cut off if that takes more than
the given number of rounds. -/
def repeatChecked (step : Cursor → Checked (Outcome α)) : Nat → Cursor → Checked (List α × Cursor)
  | 0, _ => ExceptT.mk none
  | rounds + 1, c => do
    match ← step c with
    | .failure _ _ => return ([], c)
    | .success v rest =>
      if rest.start = c.start then return ([], c)
      else
        let (vs, last) ← repeatChecked step rounds rest
        return (v :: vs, last)

/-- Runs a parser at a cursor with checked moves and a number of rounds for each repetition. -/
def execute (rounds : Nat) : {α : Type} → Peg α → Cursor → Checked (Outcome α)
  | _, any, c =>
    if c.isEnd then return .failure c.start "any character" else c.yield (c.peek 0) 1
  | _, unit u, c =>
    if ¬c.isEnd ∧ c.peek 0 = u then c.yield u 1 else return .failure c.start (Text.quoted [u])
  | _, seq p q, c => do
    match ← execute rounds p c with
    | .failure pos expected => return .failure pos expected
    | .success a rest =>
      match ← execute rounds q rest with
      | .failure pos expected => return .failure pos expected
      | .success b last => last.yield (a, b) 0
  | _, alt p q, c => do
    match ← execute rounds p c with
    | .success a rest => return .success a rest
    | .failure pos expected =>
      match ← execute rounds q c with
      | .success a rest => return .success a rest
      | .failure pos' expected' =>
        return .failure (max pos pos') (expected ++ " or " ++ expected')
  | _, except p excluded shown, c => do
    match ← execute rounds excluded c with
    | .success b _ => return .failure c.start ("not " ++ shown b)
    | .failure _ _ => execute rounds p c
  | _, many p, c => do
    let (vs, last) ← repeatChecked (execute rounds p) rounds c
    last.yield vs 0
  | _, many1 p, c => do
    match ← execute rounds p c with
    | .failure pos expected => return .failure pos expected
    | .success v rest =>
      if rest.start = c.start then c.yield [v] 0
      else
        let (vs, last) ← repeatChecked (execute rounds p) rounds rest
        let last ← last.move 0
        last.yield (v :: vs) 0
  | _, map f p, c => do
    match ← execute rounds p c with
    | .failure pos expected => return .failure pos expected
    | .success v rest => rest.yield (f v) 0

section Repetition

variable {step : Cursor → Outcome α}

/-- A repetition of steps that end without an error and stay in their windows ends without an error.
Every round but the last shortens the window, so that one round more than the window has units is
enough. -/
theorem repeatChecked_eq_iterate {checked : Cursor → Checked (Outcome α)} {rounds : Nat}
    {c : Cursor} (hstep : ∀ d : Cursor, d.remaining ≤ c.remaining → checked d = pure (step d))
    (hwithin : ∀ d, (step d).Within d) (h : c.remaining < rounds) :
    repeatChecked checked rounds c = pure (iterate step c) := by
  induction rounds generalizing c with
  | zero => omega
  | succ rounds ih =>
    have hc := hwithin c
    rw [repeatChecked, hstep c (Nat.le_refl _), pure_bind, iterate_eq]
    cases hs : step c with
    | failure pos expected => rfl
    | success v rest =>
      rw [hs] at hc
      have hlt : rest.remaining < c.remaining ↔ rest.start ≠ c.start :=
        Cursor.Behind.remaining_lt_iff hc
      dsimp only
      by_cases hstill : rest.start = c.start
      · rw [if_pos hstill, if_neg (by simpa [hlt] using hstill)]
      · have hshort := hlt.2 hstill
        have hrest : ∀ d : Cursor, d.remaining ≤ rest.remaining → checked d = pure (step d) := by
          intro d hd
          exact hstep d (by omega)
        rw [if_neg hstill, if_pos hshort, ih hrest (by omega), pure_bind]

theorem length_iterate_le (h : ∀ c, (step c).Within c) (c : Cursor) :
    c.start + (iterate step c).1.length ≤ (iterate step c).2.start := by
  induction hn : c.remaining using Nat.strong_induction_on generalizing c with
  | _ n ih =>
    have hc := h c
    rw [iterate_eq]
    cases hs : step c with
    | failure pos expected => exact Nat.le_refl _
    | success v rest =>
      rw [hs] at hc
      dsimp only
      by_cases hlt : rest.remaining < c.remaining
      · have hrest := ih rest.remaining (hn ▸ hlt) rest rfl
        have hmove := (Cursor.Behind.remaining_lt_iff hc).1 hlt
        have hstart := Cursor.Behind.start hc
        rw [if_pos hlt]
        dsimp only [List.length_cons]
        omega
      · rw [if_neg hlt]
        exact Nat.le_refl _

end Repetition

/-- A run with checked moves ends before any repetition has taken more rounds than the window has
units and one more. It ends with the outcome of the parser and never with a bounds error. -/
theorem execute_eq_parse {rounds : Nat} (p : Peg α) {c : Cursor} (h : c.remaining < rounds) :
    p.execute rounds c = pure (p.parse c) := by
  induction p generalizing c with
  | any =>
    rw [execute, parse]
    cases hn : c.next? with
    | none => rw [if_pos (c.next?_eq_none_iff.1 hn)]
    | some next =>
      rw [if_neg (Cursor.not_isEnd_of_next? hn), Cursor.yield_one hn,
        (Cursor.advance_of_next? hn).1]
  | unit u =>
    rw [execute, parse]
    cases hn : c.next? with
    | none =>
      have hend := c.next?_eq_none_iff.1 hn
      rw [if_neg (by simp [hend])]
    | some next =>
      rw [(Cursor.advance_of_next? hn).1]
      dsimp only
      by_cases hu : next.1 = u
      · rw [if_pos ⟨Cursor.not_isEnd_of_next? hn, hu⟩, if_pos hu, Cursor.yield_one hn, hu]
      · rw [if_neg (by simp [hu]), if_neg hu]
  | seq p q ihp ihq =>
    have hp := p.parse_within c
    rw [execute, parse, ihp h, pure_bind]
    cases hc : p.parse c with
    | failure pos expected => rfl
    | success a rest =>
      rw [hc] at hp
      have hrest := Cursor.Behind.remaining_le hp
      dsimp only
      rw [ihq (Nat.lt_of_le_of_lt hrest h), pure_bind]
      cases q.parse rest with
      | failure pos expected => rfl
      | success b last => exact last.yield_zero (a, b)
  | alt p q ihp ihq =>
    rw [execute, parse, ihp h, pure_bind]
    cases p.parse c with
    | success a rest => rfl
    | failure pos expected =>
      dsimp only
      rw [ihq h, pure_bind]
      cases q.parse c <;> rfl
  | except p excluded shown ihp ihe =>
    rw [execute, parse, ihe h, pure_bind]
    cases excluded.parse c with
    | success b rest => rfl
    | failure pos expected => exact ihp h
  | many p ih =>
    have hstep : ∀ d : Cursor, d.remaining ≤ c.remaining →
        p.execute rounds d = pure (p.parse d) := by
      intro d hd
      exact ih (Nat.lt_of_le_of_lt hd h)
    rw [execute, parse, repeatChecked_eq_iterate hstep p.parse_within h, pure_bind]
    exact Cursor.yield_zero _ _
  | many1 p ih =>
    have hp := p.parse_within c
    rw [execute, parse, ih h, pure_bind]
    cases hc : p.parse c with
    | failure pos expected => rfl
    | success v rest =>
      rw [hc] at hp
      have hlt : rest.remaining < c.remaining ↔ rest.start ≠ c.start :=
        Cursor.Behind.remaining_lt_iff hp
      dsimp only
      -- A first match that stands still is kept, unlike a later one.
      by_cases hstill : rest.start = c.start
      · rw [if_pos hstill, if_neg (by simpa [hlt] using hstill)]
        exact c.yield_zero [v]
      · have hshort := hlt.2 hstill
        have hstep : ∀ d : Cursor, d.remaining ≤ rest.remaining →
            p.execute rounds d = pure (p.parse d) := by
          intro d hd
          exact ih (by omega)
        rw [if_neg hstill, if_pos hshort,
          repeatChecked_eq_iterate hstep p.parse_within (by omega), pure_bind, Cursor.move_zero,
          pure_bind]
        exact Cursor.yield_zero _ _
  | map f p ih =>
    rw [execute, parse, ih h, pure_bind]
    cases p.parse c with
    | failure pos expected => rfl
    | success v rest => exact rest.yield_zero (f v)

theorem length_le_of_parse_many {p : Peg α} {c rest : Cursor} {vs : List α}
    (h : (many p).parse c = .success vs rest) : vs.length ≤ rest.start - c.start := by
  have hlen := length_iterate_le p.parse_within c
  rw [parse] at h
  simp only [Outcome.success.injEq] at h
  obtain ⟨rfl, rfl⟩ := h
  omega

theorem length_le_of_parse_many1 {p : Peg α} {c rest : Cursor} {vs : List α}
    (h : (many1 p).parse c = .success vs rest) : vs.length ≤ max 1 (rest.start - c.start) := by
  have hc := p.parse_within c
  rw [parse] at h
  cases hp : p.parse c with
  | failure pos expected =>
    rw [hp] at h
    cases h
  | success v first =>
    rw [hp] at h hc
    dsimp only at h
    split_ifs at h with hlt
    · have hlen := length_iterate_le p.parse_within first
      have hmove := (Cursor.Behind.remaining_lt_iff hc).1 hlt
      have hstart := Cursor.Behind.start hc
      simp only [Outcome.success.injEq] at h
      obtain ⟨rfl, rfl⟩ := h
      rw [List.length_cons]
      omega
    · cases h
      exact Nat.le_max_left _ _

/-- Every parser ends at every cursor, without a bounds error, inside the window it was run at, and
its repetitions collect no more values than the units they take account for. -/
theorem execute_ends_within (p : Peg α) (c : Cursor) :
    (∀ rounds, c.remaining < rounds → (p.execute rounds c).run = some (.ok (p.parse c))) ∧
      p.parseRange c.text c.start c.stop = .ok (p.parse c) ∧
      (∀ v rest, p.parse c = .success v rest → rest.text = c.text ∧ rest.stop = c.stop ∧
        c.start ≤ rest.start ∧ rest.start ≤ c.stop) ∧
      (∀ pos expected, p.parse c = .failure pos expected → c.start ≤ pos ∧ pos ≤ c.stop) ∧
      (∀ vs rest, (many p).parse c = .success vs rest → vs.length ≤ rest.start - c.start) ∧
      (∀ vs rest, (many1 p).parse c = .success vs rest →
        vs.length ≤ max 1 (rest.start - c.start)) := by
  have hwithin := p.parse_within c
  refine ⟨?_, ?_, ?_, ?_, ?_, ?_⟩
  · intro rounds h
    rw [execute_eq_parse p h]
    rfl
  · unfold parseRange
    rw [c.ofRange_self]
    rfl
  · intro v rest h
    rw [h] at hwithin
    obtain ⟨htext, hstop, hstart⟩ := hwithin
    exact ⟨htext, hstop, hstart, hstop ▸ rest.start_le_stop⟩
  · intro pos expected h
    rw [h] at hwithin
    exact hwithin
  · intro vs rest h
    exact length_le_of_parse_many h
  · intro vs rest h
    exact length_le_of_parse_many1 h

/-- At the text `b`, at least one match of any number of units `a` collects one value and takes
nothing. At the text `aab`, any number of units `a` collects as many values as it takes units. -/
theorem execute_ends_within_still :
    ((many1 (many (unit 0x61))).execute 2 (Cursor.ofText [0x62])).run =
        some (.ok (.success [[]] (Cursor.ofText [0x62]))) ∧
      ∃ vs rest, (many (unit 0x61)).parse (Cursor.ofText [0x61, 0x61, 0x62]) = .success vs rest ∧
        rest.start ≤ rest.stop ∧ rest.stop = (Cursor.ofText [0x61, 0x61, 0x62]).stop ∧
        vs.length = 2 ∧ vs.length ≤ rest.start - (Cursor.ofText [0x61, 0x61, 0x62]).start := by
  have h : (many1 (many (unit 0x61))).parse (Cursor.ofText [0x62]) =
      .success [[]] (Cursor.ofText [0x62]) := rfl
  have htwo : (many (unit 0x61)).parse (Cursor.ofText [0x61, 0x61, 0x62]) =
      .success [0x61, 0x61] (Cursor.window [0x61, 0x61, 0x62] 2 3 (by decide) (by decide)) := rfl
  constructor
  · rw [← h]
    obtain ⟨hends, -⟩ := execute_ends_within (many1 (many (unit 0x61))) (Cursor.ofText [0x62])
    exact hends 2 (by decide)
  · obtain ⟨-, -, hinside, -⟩ :=
      execute_ends_within (many (unit 0x61)) (Cursor.ofText [0x61, 0x61, 0x62])
    obtain ⟨-, -, -, -, hlength, -⟩ :=
      execute_ends_within (unit 0x61) (Cursor.ofText [0x61, 0x61, 0x62])
    obtain ⟨-, hstop, -, hle⟩ := hinside _ _ htwo
    exact ⟨_, _, htwo, hstop ▸ hle, hstop, rfl, hlength _ _ htwo⟩

end Peg

end CommandText
