import CommandText.Proofs.Bounds

/-!
# Repetition is greedy

A repetition takes one round after another. `Peg.Rounds` lists the places between the rounds: the
parser matches at each of them, moves on to the next one, and leaves one value. The places end where
the parser rests, that is where it fails or stands still, and never before. A repetition that starts
where its parser rests has no rounds, so that nothing is left for the parser behind a repetition,
and nothing but one round for a repetition of a repetition. At least one match is one match followed
by as many as there are. This holds although a match that stands still is dropped by the one and
kept by the other, because such a match is the first and the last one.
-/

namespace CommandText

namespace Cursor

theorem Behind.eq_of_start {c d : Cursor} (h : c.Behind d) (hstart : d.start = c.start) : d = c :=
  Cursor.ext h.text hstart h.stop

end Cursor

namespace Peg

variable {α : Type}

/-- The parser fails at a cursor, or it succeeds without taking a unit. -/
def RestsAt (p : Peg α) (c : Cursor) : Prop :=
  (∃ pos expected, p.parse c = .failure pos expected) ∨ ∃ v, p.parse c = .success v c

/-- Matches of a parser in a row from a cursor on. Between two places stands one match, which moves
on and leaves one value. -/
structure Rounds (p : Peg α) (c : Cursor) (vs : List α) (place : Nat → Cursor) : Prop where
  first : place 0 = c
  matched : ∀ m (h : m < vs.length), p.parse (place m) = .success (vs.get ⟨m, h⟩) (place (m + 1))
  moved : ∀ m, m < vs.length → (place m).start < (place (m + 1)).start

/-- A parser rests, or it takes a round. -/
theorem restsAt_or_moves (p : Peg α) (c : Cursor) :
    p.RestsAt c ∨ ∃ v rest, p.parse c = .success v rest ∧ c.start < rest.start := by
  cases hp : p.parse c with
  | failure pos expected => exact .inl (.inl ⟨pos, expected, hp⟩)
  | success v rest =>
    have hbehind := behind_of_parse hp
    have hstart := hbehind.start
    by_cases hstill : rest.start = c.start
    · obtain rfl := hbehind.eq_of_start hstill
      exact .inl (.inr ⟨v, hp⟩)
    · exact .inr ⟨v, rest, rfl, by omega⟩

theorem iterate_of_restsAt {p : Peg α} {c : Cursor} (h : p.RestsAt c) :
    iterate p.parse c = ([], c) := by
  rw [iterate_eq]
  rcases h with ⟨pos, expected, hp⟩ | ⟨v, hp⟩
  · rw [hp]
  · rw [hp]
    exact if_neg (Nat.lt_irrefl _)

theorem iterate_of_moves {p : Peg α} {c rest : Cursor} {v : α} (hp : p.parse c = .success v rest)
    (h : c.start < rest.start) :
    iterate p.parse c = (v :: (iterate p.parse rest).1, (iterate p.parse rest).2) := by
  have hshort := (behind_of_parse hp).remaining_lt_iff.2 (Nat.ne_of_gt h)
  rw [iterate_eq, hp]
  exact if_pos hshort

theorem rounds_nil (p : Peg α) (c : Cursor) : p.Rounds c [] fun _ => c := by
  refine ⟨rfl, ?_, ?_⟩
  · intro m h
    exact absurd h (Nat.not_lt_zero m)
  · intro m h
    exact absurd h (Nat.not_lt_zero m)

theorem Rounds.cons {p : Peg α} {c rest : Cursor} {v : α} {vs : List α} {place : Nat → Cursor}
    (hp : p.parse c = .success v rest) (h : c.start < rest.start) (hrest : p.Rounds rest vs place) :
    p.Rounds c (v :: vs) fun m => m.casesOn c place := by
  have hfirst := hrest.first
  refine ⟨rfl, ?_, ?_⟩
  · intro m hm
    cases m with
    | zero => simpa [hfirst] using hp
    | succ m => exact hrest.matched m (Nat.lt_of_succ_lt_succ hm)
  · intro m hm
    cases m with
    | zero => simpa [hfirst] using h
    | succ m => exact hrest.moved m (Nat.lt_of_succ_lt_succ hm)

/-- A repetition goes through its rounds up to a place where its parser rests. -/
theorem exists_rounds (p : Peg α) (c : Cursor) :
    ∃ place, p.Rounds c (iterate p.parse c).1 place ∧
      place (iterate p.parse c).1.length = (iterate p.parse c).2 ∧
      p.RestsAt (iterate p.parse c).2 := by
  induction hn : c.stop - c.start using Nat.strong_induction_on generalizing c with
  | _ n ih =>
    rcases p.restsAt_or_moves c with hrests | ⟨v, rest, hp, hmoves⟩
    · rw [iterate_of_restsAt hrests]
      exact ⟨fun _ => c, p.rounds_nil c, rfl, hrests⟩
    · have hstop := (behind_of_parse hp).stop
      have hend := rest.start_le_stop
      obtain ⟨place, hrounds, hlast, hrests⟩ := ih (rest.stop - rest.start) (by omega) rest rfl
      rw [iterate_of_moves hp hmoves]
      exact ⟨_, hrounds.cons hp hmoves, hlast, hrests⟩

theorem parse_many (p : Peg α) (c : Cursor) :
    (many p).parse c = .success (iterate p.parse c).1 (iterate p.parse c).2 := by
  rw [parse]

theorem RestsAt.many {p : Peg α} {c : Cursor} (h : p.RestsAt c) : (many p).RestsAt c := by
  refine .inr ⟨[], ?_⟩
  rw [parse_many, iterate_of_restsAt h]

/-- A repetition of a repetition finds all there is in its first round. -/
theorem parse_many_many (p : Peg α) (c : Cursor) :
    (many (many p)).parse c =
      .success (if (iterate p.parse c).1 = [] then [] else [(iterate p.parse c).1])
        (iterate p.parse c).2 := by
  obtain ⟨place, hrounds, hlast, hrests⟩ := p.exists_rounds c
  have hlength := length_iterate_le p.parse_within c
  rw [parse_many (many p)]
  split_ifs with hnone
  · -- Without a round the parser rests at the start.
    have hstill : (iterate p.parse c).2 = c := by
      rw [← hlast, hnone]
      exact hrounds.first
    rw [hstill] at hrests
    rw [hstill, iterate_of_restsAt hrests.many]
  · have hpos := List.length_pos_iff.2 hnone
    rw [iterate_of_moves (p.parse_many c) (by omega), iterate_of_restsAt hrests.many]

theorem eq_of_parse_seq_many {p : Peg α} {c rest : Cursor} {v : List α × α}
    (h : (seq (many p) p).parse c = .success v rest) : rest = (iterate p.parse c).2 := by
  obtain ⟨-, -, -, hrests⟩ := p.exists_rounds c
  rw [parse, parse_many] at h
  dsimp only at h
  rcases hrests with ⟨pos, expected, hp⟩ | ⟨w, hp⟩
  · rw [hp] at h
    cases h
  · rw [hp] at h
    cases h
    rfl

theorem parse_many1 (p : Peg α) (c : Cursor) :
    (many1 p).parse c = (map (fun x => x.1 :: x.2) (seq p (many p))).parse c := by
  rw [parse, parse, parse]
  cases hp : p.parse c with
  | failure pos expected => rfl
  | success v rest =>
    have hbehind := behind_of_parse hp
    dsimp only
    rw [parse_many]
    by_cases hstill : rest.start = c.start
    · -- A first match that stands still is kept, and no other one follows.
      obtain rfl := hbehind.eq_of_start hstill
      have hrests : p.RestsAt rest := .inr ⟨v, hp⟩
      rw [iterate_of_restsAt hrests, if_neg (Nat.lt_irrefl _)]
      rfl
    · rw [if_pos (hbehind.remaining_lt_iff.2 hstill)]
      rfl

/-- A repetition succeeds with the values of all rounds up to the first place where its parser
rests. A parser behind its own repetition takes nothing more, a repetition of a repetition finds the
same in one round, and at least one match is one match followed by a repetition. -/
theorem repetition_takes_all_rounds (p : Peg α) (c : Cursor) :
    ∃ (vs : List α) (place : Nat → Cursor),
      p.Rounds c vs place ∧ p.RestsAt (place vs.length) ∧
      (many p).parse c = .success vs (place vs.length) ∧
      (∀ v rest, (seq (many p) p).parse c = .success v rest → rest = place vs.length) ∧
      (many (many p)).parse c = .success (if vs = [] then [] else [vs]) (place vs.length) ∧
      (many1 p).parse c = (map (fun x => x.1 :: x.2) (seq p (many p))).parse c ∧
      ∀ pos expected, p.parse c = .failure pos expected →
        (many1 p).parse c = .failure pos expected := by
  obtain ⟨place, hrounds, hlast, hrests⟩ := p.exists_rounds c
  refine ⟨(iterate p.parse c).1, place, hrounds, ?_⟩
  rw [hlast]
  refine ⟨hrests, p.parse_many c, ?_, p.parse_many_many c, p.parse_many1 c, ?_⟩
  · intro v rest h
    exact eq_of_parse_seq_many h
  · intro pos expected h
    rw [parse, h]

/-- In the text `aab`, a row of units `a` is repeated once. Behind the repetition another row stands
still, and a repetition of the repetition ends at the same place. At the text `b`, at least one unit
`a` is missing just as a single one is. -/
theorem repetition_takes_all_rounds_of_row :
    (seq (many (many (unit 0x61))) (many (unit 0x61))).parse (Cursor.ofText [0x61, 0x61, 0x62]) =
        .success ([[0x61, 0x61]], [])
          (Cursor.window [0x61, 0x61, 0x62] 2 3 (by decide) (by decide)) ∧
      (many (many (many (unit 0x61)))).parse (Cursor.ofText [0x61, 0x61, 0x62]) =
        .success [[[0x61, 0x61]]]
          (Cursor.window [0x61, 0x61, 0x62] 2 3 (by decide) (by decide)) ∧
      (many1 (unit 0x61)).parse (Cursor.ofText [0x62]) = .failure 0 (Text.quoted [0x61]) := by
  have hrow : (seq (many (many (unit 0x61))) (many (unit 0x61))).parse
      (Cursor.ofText [0x61, 0x61, 0x62]) = .success ([[0x61, 0x61]], [])
        (Cursor.window [0x61, 0x61, 0x62] 2 3 (by decide) (by decide)) := rfl
  obtain ⟨vs, place, -, -, hmany, hseq, hnested, -⟩ :=
    repetition_takes_all_rounds (many (unit 0x61)) (Cursor.ofText [0x61, 0x61, 0x62])
  obtain ⟨-, -, -, -, -, -, -, -, hfail⟩ :=
    repetition_takes_all_rounds (unit 0x61) (Cursor.ofText [0x62])
  rw [← hseq _ _ hrow] at hmany hnested
  have hvalues : (many (many (unit 0x61))).parse (Cursor.ofText [0x61, 0x61, 0x62]) =
      .success [[0x61, 0x61]] (Cursor.window [0x61, 0x61, 0x62] 2 3 (by decide) (by decide)) := rfl
  obtain ⟨rfl, -⟩ := Outcome.success.inj (hmany.symm.trans hvalues)
  exact ⟨hrow, hnested, hfail _ _ rfl⟩

end Peg

end CommandText
