import CommandText.Number.Numeral
import CommandText.Text.Quoted

/-!
# Cursors

A cursor is a window `[start, stop)` on a text, together with the units it still has ahead. Parsing
moves the start of the window forward and never touches anything else, so a cursor is a plain value
and the old one stays valid. A window that does not lie in its text, and a move beyond the window,
are reported as bounds errors.
-/

namespace CommandText

/-- Misuse of a cursor or of a parser for one unit. -/
inductive BoundsError where
  | window (start stop : Int) (length : Nat)
  | move (distance : Int) (remaining : Nat)
  | notOneUnit (t : Text)

namespace BoundsError

/-- The offsets that were asked for may be of any size and are shown as numbers are written. -/
def message : BoundsError → Text
  | window start stop length =>
    "Invalid cursor range [" ++ (Number.ofInt start).written ++ ", " ++
      (Number.ofInt stop).written ++ ") over " ++ Text.ofNat length ++ " characters"
  | move distance remaining =>
    "Cannot advance " ++ (Number.ofInt distance).written ++ " characters with " ++
      Text.ofNat remaining ++ " remaining"
  | notOneUnit t => "char() expects exactly one character, got " ++ t.quoted

end BoundsError

/-- The window `[start, stop)` on a text, with the units that it shows. -/
structure Cursor where
  text : Text
  start : Nat
  stop : Nat
  ahead : Text
  start_le_stop : start ≤ stop
  stop_le_length : stop ≤ text.length
  ahead_eq : ahead = (text.drop start).take (stop - start)

namespace Cursor

def window (text : Text) (start stop : Nat) (h₁ : start ≤ stop) (h₂ : stop ≤ text.length) :
    Cursor :=
  ⟨text, start, stop, (text.drop start).take (stop - start), h₁, h₂, rfl⟩

def ofText (text : Text) : Cursor :=
  ⟨text, 0, text.length, text, Nat.zero_le _, Nat.le_refl _, by simp⟩

/-- The window between two given offsets, if they are in order and inside the text. -/
def ofRange (text : Text) (start stop : Int) : Except BoundsError Cursor :=
  if h : 0 ≤ start ∧ start ≤ stop ∧ stop ≤ text.length then
    .ok (window text start.toNat stop.toNat (by omega) (by omega))
  else .error (.window start stop text.length)

def remaining (c : Cursor) : Nat := c.stop - c.start

def isEnd (c : Cursor) : Bool := c.start == c.stop

theorem length_ahead (c : Cursor) : c.ahead.length = c.remaining := by
  have h₁ := c.start_le_stop
  have h₂ := c.stop_le_length
  rw [c.ahead_eq, List.length_take, List.length_drop, remaining]
  omega

theorem ahead_eq_nil_iff (c : Cursor) : c.ahead = [] ↔ c.isEnd := by
  have h := c.start_le_stop
  rw [← List.length_eq_zero_iff, length_ahead, remaining, isEnd, beq_iff_eq]
  omega

@[ext]
theorem ext {c d : Cursor} (ht : c.text = d.text) (hs : c.start = d.start) (he : c.stop = d.stop) :
    c = d := by
  have hc := c.ahead_eq
  have hd := d.ahead_eq
  cases c
  cases d
  simp_all

/-- The unit at a distance from the start of the window, and the null unit outside the window. -/
def peek (c : Cursor) (distance : Int) : UInt16 :=
  if 0 ≤ distance ∧ distance < c.remaining then c.ahead.getD distance.toNat Text.nul else Text.nul

def skip (c : Cursor) (n : Nat) (h : n ≤ c.remaining) : Cursor where
  text := c.text
  start := c.start + n
  stop := c.stop
  ahead := c.ahead.drop n
  start_le_stop := by
    have := c.start_le_stop
    rw [remaining] at h
    omega
  stop_le_length := c.stop_le_length
  ahead_eq := by
    rw [c.ahead_eq, List.drop_take, List.drop_drop, Nat.sub_sub]

/-- Moves the start of the window forward, at most to its end. -/
def advance (c : Cursor) (distance : Int) : Except BoundsError Cursor :=
  if h : 0 ≤ distance ∧ distance ≤ c.remaining then .ok (c.skip distance.toNat (by omega))
  else .error (.move distance c.remaining)

/-- The first unit of the window and the window behind it. -/
def next? (c : Cursor) : Option (UInt16 × Cursor) :=
  match h : c.ahead with
  | [] => none
  | u :: _ => some (u, c.skip 1 (by rw [← c.length_ahead, h]; simp))

theorem next?_eq_none_iff (c : Cursor) : c.next? = none ↔ c.isEnd := by
  rw [← ahead_eq_nil_iff, next?]
  split <;> simp_all

theorem next?_eq_some {c d : Cursor} {u : UInt16} (h : c.next? = some (u, d)) :
    c.ahead = u :: d.ahead ∧ d.text = c.text ∧ d.stop = c.stop ∧ d.start = c.start + 1 := by
  rw [next?] at h
  split at h
  · simp at h
  · next v rest hv =>
    simp only [Option.some.injEq, Prod.mk.injEq] at h
    obtain ⟨rfl, rfl⟩ := h
    simp [skip, hv]

theorem advance_of_next? {c d : Cursor} {u : UInt16} (h : c.next? = some (u, d)) :
    c.peek 0 = u ∧ c.advance 1 = .ok d := by
  have hl := c.length_ahead
  obtain ⟨ha, ht, he, hs⟩ := next?_eq_some h
  have hr : 1 ≤ c.remaining := by rw [← hl, ha]; simp
  refine ⟨?_, ?_⟩
  · rw [peek, if_pos (by omega), ha]
    simp
  · rw [advance, dif_pos (by omega)]
    congr 1
    ext1 <;> simp [skip, ht, he, hs]

end Cursor

end CommandText
