import CommandText.Number.Basic

/-!
# Numerals

A number is written with the fewest digits that read back as the same number, and of those with the
ones nearest to it. The point is written out if it falls between six places before and twenty-one
places behind the first digit, and otherwise the numeral has a power of ten.
-/

namespace CommandText

namespace Magnitude

def placeOf (num den : Nat) : Int :=
  if den ≤ num then (Text.ofNat (num / den)).length
  else 1 - (Text.ofNat ((den - 1) / num)).length

/-- The two natural numbers around a quotient, the nearer one first. -/
def neighbours (num den : Nat) : List Nat :=
  let low := num / den
  if roundDiv num den = low then [low, low + 1] else [low + 1, low]

/-- The decimal with a number of digits that reads back as the magnitude, if there is one: its
digits as a natural number, and the power of ten of the last of them. -/
def decimal? (x : Magnitude) (count : Nat) : Option (Nat × Int) :=
  let (num, den) := x.ratio
  let power := placeOf num den - count
  let (n, d) := scaled 10 num den power
  ((neighbours n d).find? fun digits => ofDecimal? digits power == some x).map fun digits =>
    (digits, power)

/-- No more digits than these are ever needed. -/
def maxDigits : Nat := 17

/-- The decimal with the fewest digits that reads back as the magnitude. -/
def shortest (x : Magnitude) : Nat × Int :=
  ((List.range maxDigits).findSome? fun i => x.decimal? (i + 1)).getD (0, 0)

end Magnitude

/-- Digits, and where the point stands, counted from before the first of them. -/
structure Numeral where
  digits : Text
  point : Int

namespace Numeral

def zeros (n : Nat) : Text := List.replicate n 0x30

/-- The digits of a natural number times a power of ten, without zeros at the end. -/
def ofDecimal (digits : Nat) (power : Int) : Numeral :=
  let all := Text.ofNat digits
  ⟨(all.reverse.dropWhile (· == 0x30)).reverse, all.length + power⟩

/-- Up to this place, the point is behind the digits and zeros fill the gap. -/
def maxPoint : Int := 21

/-- Down to this place, the point is before the digits and zeros fill the gap. -/
def minPoint : Int := -5

def pointed : Text → Text
  | [] => []
  | [u] => [u]
  | u :: rest => u :: 0x2E :: rest

def text (n : Numeral) : Text :=
  if maxPoint < n.point ∨ n.point < minPoint then
    let power := n.point - 1
    pointed n.digits ++ (if power < 0 then "e-" else "e+") ++ Text.ofNat power.natAbs
  else if n.digits.length ≤ n.point then
    n.digits ++ zeros (n.point - n.digits.length).toNat
  else if 0 < n.point then
    n.digits.take n.point.toNat ++ 0x2E :: n.digits.drop n.point.toNat
  else "0." ++ zeros (-n.point).toNat ++ n.digits

end Numeral

namespace Number

/-- The text of a number; zero has no sign. -/
def written : Number → Text
  | finite negative x =>
    if x.mantissa = 0 then "0"
    else
      let (digits, power) := x.shortest
      let text := (Numeral.ofDecimal digits power).text
      if negative then 0x2D :: text else text
  | infinite false => "Infinity"
  | infinite true => "-Infinity"
  | nan => "NaN"

end Number

end CommandText
