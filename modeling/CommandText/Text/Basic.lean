/-!
# Texts as lists of 16-bit units

Every offset, length and position in this library counts 16-bit units, and a character outside the
basic plane is a pair of them. A text is therefore any list of units: a pair may be cut in half, and
half a pair is still a text. This file fixes the units with a name, the passage from and to Unicode
characters, and the few cuts and joins that the rest of the library is written in.
-/

namespace CommandText

/-- The 16-bit units of a text, in order. -/
abbrev Text := List UInt16

namespace Text

abbrev nul : UInt16 := 0x00
abbrev newline : UInt16 := 0x0A
abbrev space : UInt16 := 0x20
abbrev quote : UInt16 := 0x22
abbrev percent : UInt16 := 0x25
abbrev equals : UInt16 := 0x3D
abbrev backslash : UInt16 := 0x5C
abbrev caret : UInt16 := 0x5E

/-- First halves of pairs. -/
def isHigh (u : UInt16) : Bool := 0xD800 ≤ u && u ≤ 0xDBFF

/-- Second halves of pairs. -/
def isLow (u : UInt16) : Bool := 0xDC00 ≤ u && u ≤ 0xDFFF

/-- The code point that a first and a second half stand for together. -/
def pairPoint (high low : UInt16) : Nat :=
  0x10000 + (high.toNat - 0xD800) * 0x400 + (low.toNat - 0xDC00)

/-- One unit below `0x10000`, a pair of halves from there on. -/
def ofPoint (n : Nat) : Text :=
  if n < 0x10000 then [n.toUInt16]
  else [(0xD800 + (n - 0x10000) / 0x400).toUInt16, (0xDC00 + (n - 0x10000) % 0x400).toUInt16]

/-- The code points of a text; half a pair counts as a code point of its own. -/
def points : Text → List Nat
  | [] => []
  | [u] => [u.toNat]
  | u :: v :: rest =>
    if isHigh u && isLow v then pairPoint u v :: points rest
    else u.toNat :: points (v :: rest)

/-- Every half stands in a pair. -/
def isPaired : Text → Bool
  | [] => true
  | [u] => !isHigh u && !isLow u
  | u :: v :: rest =>
    if isHigh u && isLow v then isPaired rest
    else !isHigh u && !isLow u && isPaired (v :: rest)

def ofString (s : String) : Text := s.toList.flatMap fun c => ofPoint c.toNat

instance : Coe String Text := ⟨ofString⟩

/-- The character at a code point, the replacement character for half a pair. -/
def pointChar (n : Nat) : Char :=
  if n.isValidChar then Char.ofNat n else Char.ofNat 0xFFFD

/-- Reads the units as characters; half a pair becomes the replacement character. -/
def toString (t : Text) : String := String.ofList ((points t).map pointChar)

/-- Decimal digits, most significant first and without leading zeros. -/
def ofNat (n : Nat) : Text := (Nat.toDigits 10 n).map fun c => c.toNat.toUInt16

def isDigit (u : UInt16) : Bool := 0x30 ≤ u && u ≤ 0x39

/-- Reads decimal digits onto `acc`, refusing any other unit. -/
def digits? (acc : Nat) : Text → Option Nat
  | [] => some acc
  | u :: rest => if isDigit u then digits? (10 * acc + (u.toNat - 0x30)) rest else none

/-- Cuts off the digits that a text starts with. -/
def digitsOff (t : Text) : Text × Text := (t.takeWhile isDigit, t.dropWhile isDigit)

def unitAt? (t : Text) (i : Int) : Option UInt16 :=
  if i < 0 then none else t[i.toNat]?

/-- The units before position `k`; a negative `k` counts back from the end of the text. -/
def before (t : Text) (k : Int) : Text :=
  t.take (if k < 0 then (t.length + k).toNat else k.toNat)

def splitOn (sep : UInt16) : Text → List Text
  | [] => [[]]
  | u :: rest =>
    if u = sep then [] :: splitOn sep rest
    else
      match splitOn sep rest with
      | [] => [[u]]
      | piece :: pieces => (u :: piece) :: pieces

theorem splitOn_ne_nil (sep : UInt16) (t : Text) : splitOn sep t ≠ [] := by
  cases t with
  | nil => simp [splitOn]
  | cons u rest =>
    rw [splitOn]
    split
    · simp
    · split <;> simp

def join (sep : Text) : List Text → Text
  | [] => []
  | [t] => t
  | t :: u :: rest => t ++ sep ++ join sep (u :: rest)

/-- Cuts at the first occurrence of a unit, which neither part keeps. -/
def cut? (sep : UInt16) : Text → Option (Text × Text)
  | [] => none
  | u :: rest => if u = sep then some ([], rest) else (cut? sep rest).map fun (a, b) => (u :: a, b)

/-- What follows `head` in a text that starts with it. -/
def after? : (head t : Text) → Option Text
  | [], t => some t
  | _ :: _, [] => none
  | u :: head, v :: t => if u = v then after? head t else none

theorem after?_eq_some_iff {head t rest : Text} : after? head t = some rest ↔ t = head ++ rest := by
  induction head generalizing t with
  | nil => simp [after?]
  | cons u head ih =>
    cases t with
    | nil => simp [after?]
    | cons v t =>
      by_cases h : u = v
      · simp [after?, h, ih]
      · simp [after?, h, Ne.symm h]

theorem cut?_eq_some {sep : UInt16} {t a b : Text} (h : cut? sep t = some (a, b)) :
    t = a ++ sep :: b ∧ sep ∉ a := by
  induction t generalizing a with
  | nil => simp [cut?] at h
  | cons u t ih =>
    rw [cut?] at h
    split at h
    · next hu => simp_all
    · next hu =>
      obtain ⟨⟨c, d⟩, hc, he⟩ := Option.map_eq_some_iff.1 h
      simp only [Prod.mk.injEq] at he
      obtain ⟨rfl, rfl⟩ := he
      obtain ⟨ht, hn⟩ := ih hc
      exact ⟨by simp [ht], by simp [hn, Ne.symm hu]⟩

/-- White space and line ends, the byte order mark included. -/
def isBlank (u : UInt16) : Bool :=
  (0x09 ≤ u && u ≤ 0x0D) || u == 0x20 || u == 0xA0 || u == 0x1680 ||
    (0x2000 ≤ u && u ≤ 0x200A) || u == 0x2028 || u == 0x2029 || u == 0x202F ||
    u == 0x205F || u == 0x3000 || u == 0xFEFF

end Text

end CommandText
