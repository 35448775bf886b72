import CommandText.Text.Basic

/-!
# Numbers

A number has 53 significant bits: a mantissa below `2 ^ 53` times a power of two between `2 ^ -1074`
and `2 ^ 971`, with a sign. Everything that is written in decimal is rounded once, to the nearest
such number, and a half goes to the even mantissa. What lies beyond the greatest of them is
infinite. The arithmetic is on natural numbers throughout, so that every rounding is exact.
-/

namespace CommandText

/-- The quotient rounded to the nearest natural number; a half goes to the even one. -/
def roundDiv (num den : Nat) : Nat :=
  let low := num / den
  let twice := 2 * (num % den)
  if twice < den ∨ twice = den ∧ low % 2 = 0 then low else low + 1

namespace Magnitude

/-- The first mantissa of 54 bits, `2 ^ 53`. -/
def limit : Nat := 0x20000000000000

/-- The first mantissa of 53 bits, `2 ^ 52`. -/
def halfLimit : Nat := 0x10000000000000

end Magnitude

/-- A number without its sign: `mantissa * 2 ^ exponent`. -/
structure Magnitude where
  mantissa : Nat
  exponent : Int
  mantissa_lt : mantissa < Magnitude.limit
  deriving DecidableEq

namespace Magnitude

def minExponent : Int := -1074

def maxExponent : Int := 971

def zero : Magnitude := ⟨0, minExponent, by decide⟩

def ratio (x : Magnitude) : Nat × Nat :=
  if x.exponent < 0 then (x.mantissa, Nat.pow 2 (-x.exponent).toNat)
  else (x.mantissa * Nat.pow 2 x.exponent.toNat, 1)

/-- A ratio divided by a power of a base. -/
def scaled (base num den : Nat) (power : Int) : Nat × Nat :=
  if power < 0 then (num * Nat.pow base (-power).toNat, den)
  else (num, den * Nat.pow base power.toNat)

/-- The exponent under which the mantissa of a ratio has 53 bits, but not less than the least. -/
def exponentOf (num den : Nat) : Int :=
  let e := (num.log2 : Int) - den.log2 - 52
  let (n, d) := scaled 2 num den e
  max minExponent (if n / d < halfLimit then e - 1 else e)

/-- The magnitude nearest to a ratio, none if the ratio is beyond the greatest. -/
def nearest? (num den : Nat) : Option Magnitude :=
  if num = 0 then some zero
  else
    let e := exponentOf num den
    let (n, d) := scaled 2 num den e
    let m := roundDiv n d
    if h : m < limit then if e ≤ maxExponent then some ⟨m, e, h⟩ else none
    else if e < maxExponent then some ⟨halfLimit, e + 1, by decide⟩ else none

/-- The magnitude nearest to `digits * 10 ^ power`. -/
def ofDecimal? (digits : Nat) (power : Int) : Option Magnitude :=
  let (num, den) := scaled 10 digits 1 (-power)
  nearest? num den

def toNat? (x : Magnitude) : Option Nat :=
  let (num, den) := x.ratio
  if num % den = 0 then some (num / den) else none

end Magnitude

/-- A magnitude with a sign, or what is left when there is none. -/
inductive Number where
  | finite (negative : Bool) (size : Magnitude)
  | infinite (negative : Bool)
  | nan
  deriving DecidableEq

namespace Number

/-- From this power of ten on, everything is infinite. -/
def infinitePlace : Int := 310

/-- Below this power of ten, everything is zero. -/
def zeroPlace : Int := -330

def ofDecimal (negative : Bool) (digits : Nat) (power : Int) : Number :=
  let place := (Text.ofNat digits).length + power
  if digits = 0 ∨ place ≤ zeroPlace then .finite negative .zero
  else if infinitePlace < place then .infinite negative
  else
    match Magnitude.ofDecimal? digits power with
    | some x => .finite negative x
    | none => .infinite negative

def ofNat (n : Nat) : Number := ofDecimal false n 0

def ofInt (n : Int) : Number := ofDecimal (n < 0) n.natAbs 0

/-- The number that a whole part, a fraction and a power of ten write. -/
def ofParts (negative : Bool) (whole fraction : Text) (power : Int) : Number :=
  ofDecimal negative ((Text.digits? 0 (whole ++ fraction)).getD 0) (power - fraction.length)

/-- Reads the power of ten at the end of a numeral; without the mark of a power it is zero. -/
def readPower (t : Text) : Option (Int × Text) :=
  match t with
  | [] => some (0, [])
  | u :: rest =>
    if u = 0x65 ∨ u = 0x45 then
      let (negative, rest) := match rest with
        | [] => (false, [])
        | s :: tail => if s = 0x2D then (true, tail) else (false, if s = 0x2B then tail else rest)
      match Text.digitsOff rest with
      | ([], _) => none
      | (ds, rest) =>
        let n : Int := (Text.digits? 0 ds).getD 0
        some (if negative then -n else n, rest)
    else some (0, t)

def isFinite : Number → Bool
  | finite _ _ => true
  | _ => false

def toInt? : Number → Option Int
  | finite negative x => x.toNat?.map fun n => if negative then -n else n
  | _ => none

end Number

end CommandText
