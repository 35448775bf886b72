import CommandText.Cursor

/-!
# Parsing expressions

Parsers are values of the type `Peg`: single units, sequence, ordered choice, exclusion, greedy
repetition, and the application of a function to the value found. Choice commits to the first
alternative that succeeds and nothing is ever taken back. Running a parser is a function from
cursors to outcomes, total because a repetition goes on only while its matches shorten the window.
-/

namespace CommandText

/-- A value with the cursor to go on from, or an offset with what was expected there. -/
inductive Outcome (α : Type) where
  | success (value : α) (rest : Cursor)
  | failure (pos : Nat) (expected : Text)

namespace Outcome

variable {α β : Type}

def map (f : α → β) : Outcome α → Outcome β
  | success value rest => success (f value) rest
  | failure pos expected => failure pos expected

end Outcome

/-- Parsers for values of a type. -/
inductive Peg : Type → Type 1 where
  /-- Any one unit. -/
  | any : Peg UInt16
  /-- One given unit. -/
  | unit (u : UInt16) : Peg UInt16
  /-- One parser, then another from where it stopped. -/
  | seq {α β : Type} (p : Peg α) (q : Peg β) : Peg (α × β)
  /-- The first parser, or else the second from the same place. -/
  | alt {α : Type} (p q : Peg α) : Peg α
  /-- A parser only where another one fails; `shown` tells how a value that is in the way is
  described. -/
  | except {α β : Type} (p : Peg α) (excluded : Peg β) (shown : β → Text) : Peg α
  /-- As many matches as there are, possibly none. -/
  | many {α : Type} (p : Peg α) : Peg (List α)
  /-- As many matches as there are, at least one. -/
  | many1 {α : Type} (p : Peg α) : Peg (List α)
  /-- A function of the value found. -/
  | map {α β : Type} (f : α → β) (p : Peg α) : Peg β

namespace Peg

variable {α β : Type}

/-- Repeats a step while it succeeds and shortens the window, at most `bound` times. -/
def iterateUpTo (step : Cursor → Outcome α) : Nat → Cursor → List α × Cursor
  | 0, c => ([], c)
  | bound + 1, c =>
    match step c with
    | .success v rest =>
      if rest.remaining < c.remaining then
        let (vs, last) := iterateUpTo step bound rest
        (v :: vs, last)
      else ([], c)
    | .failure _ _ => ([], c)

def iterate (step : Cursor → Outcome α) (c : Cursor) : List α × Cursor :=
  iterateUpTo step c.remaining c

/-- No bound of at least the size of the window cuts a repetition short. -/
theorem iterateUpTo_eq_iterate (step : Cursor → Outcome α) {bound : Nat} {c : Cursor}
    (h : c.remaining ≤ bound) : iterateUpTo step bound c = iterate step c := by
  have key : ∀ m n (d : Cursor), d.remaining ≤ m → d.remaining ≤ n →
      iterateUpTo step m d = iterateUpTo step n d := by
    intro m
    induction m with
    | zero =>
      intro n d hm _
      cases n with
      | zero => rfl
      | succ n =>
        rw [iterateUpTo, iterateUpTo]
        split
        · rw [if_neg (by omega)]
        · rfl
    | succ m ih =>
      intro n d hm hn
      cases n with
      | zero =>
        rw [iterateUpTo, iterateUpTo]
        split
        · rw [if_neg (by omega)]
        · rfl
      | succ n =>
        rw [iterateUpTo, iterateUpTo]
        split
        · split
          · rw [ih n _ (by omega) (by omega)]
          · rfl
        · rfl
  exact key _ _ c h (Nat.le_refl _)

theorem iterate_eq (step : Cursor → Outcome α) (c : Cursor) :
    iterate step c =
      match step c with
      | .success v rest =>
        if rest.remaining < c.remaining then (v :: (iterate step rest).1, (iterate step rest).2)
        else ([], c)
      | .failure _ _ => ([], c) := by
  rw [← iterateUpTo_eq_iterate step (Nat.le_succ c.remaining), iterateUpTo]
  split
  · split
    · next hlt => rw [iterateUpTo_eq_iterate step (Nat.le_of_lt hlt)]
    · rfl
  · rfl

def parse : {α : Type} → Peg α → Cursor → Outcome α
  | _, any, c =>
    match c.next? with
    | some (u, rest) => .success u rest
    | none => .failure c.start "any character"
  | _, unit u, c =>
    match c.next? with
    | some (v, rest) => if v = u then .success v rest else .failure c.start (Text.quoted [u])
    | none => .failure c.start (Text.quoted [u])
  | _, seq p q, c =>
    match parse p c with
    | .success a rest => (parse q rest).map fun b => (a, b)
    | .failure pos expected => .failure pos expected
  | _, alt p q, c =>
    match parse p c with
    | .success a rest => .success a rest
    | .failure pos expected =>
      match parse q c with
      | .success a rest => .success a rest
      | .failure pos' expected' => .failure (max pos pos') (expected ++ " or " ++ expected')
  | _, except p excluded shown, c =>
    match parse excluded c with
    | .success b _ => .failure c.start ("not " ++ shown b)
    | .failure _ _ => parse p c
  | _, many p, c =>
    let (vs, last) := iterate (parse p) c
    .success vs last
  | _, many1 p, c =>
    match parse p c with
    | .success v rest =>
      if rest.remaining < c.remaining then
        let (vs, last) := iterate (parse p) rest
        .success (v :: vs) last
      else .success [v] c
    | .failure pos expected => .failure pos expected
  | _, map f p, c => (parse p c).map f

/-- Runs a parser on the part of a text between two offsets. -/
def parseRange (p : Peg α) (text : Text) (start stop : Int) : Except BoundsError (Outcome α) :=
  (Cursor.ofRange text start stop).map p.parse

def fst (p : Peg (α × β)) : Peg α := p.map Prod.fst

def snd (p : Peg (α × β)) : Peg β := p.map Prod.snd

def joined (p : Peg (List Text)) : Peg Text := p.map List.flatten

/-- The parser for the unit that a text consists of. -/
def unit? (t : Text) : Except BoundsError (Peg UInt16) :=
  match t with
  | [u] => .ok (unit u)
  | _ => .error (.notOneUnit t)

/-- A parser between two others, of which only its value is kept. -/
def between {γ : Type} (opening : Peg α) (p : Peg β) (closing : Peg γ) : Peg β :=
  snd (fst (seq (seq opening p) closing))

end Peg

end CommandText
