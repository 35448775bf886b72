import CommandText.Text.Basic

/-!
# Quoted texts

A text is shown between double quotes so that it fits on one line and can be read back unit for
unit. The quote and the backslash are escaped by a backslash, five control units have a letter of
their own, and the other control units and the halves that stand outside a pair are written with
four hexadecimal digits. Everything else stands for itself.
-/

namespace CommandText

namespace Text

def hexDigit (n : Nat) : UInt16 := if n < 10 then (0x30 + n).toUInt16 else (0x57 + n).toUInt16

def hexValue? (u : UInt16) : Option Nat :=
  if isDigit u then some (u.toNat - 0x30)
  else if 0x61 ≤ u && u ≤ 0x66 then some (u.toNat - 0x57)
  else if 0x41 ≤ u && u ≤ 0x46 then some (u.toNat - 0x37)
  else none

/-- The letter that names a control unit after a backslash. -/
def controlLetter? (u : UInt16) : Option UInt16 :=
  if u = 0x08 then some 0x62
  else if u = 0x09 then some 0x74
  else if u = 0x0A then some 0x6E
  else if u = 0x0C then some 0x66
  else if u = 0x0D then some 0x72
  else none

def hexEscape (u : UInt16) : Text :=
  let n := u.toNat
  [backslash, 0x75, hexDigit (n / 0x1000), hexDigit (n / 0x100 % 0x10), hexDigit (n / 0x10 % 0x10),
    hexDigit (n % 0x10)]

/-- One unit that is not half of a pair with its neighbour, as it is written between quotes. -/
def quotedUnit (u : UInt16) : Text :=
  if u = quote ∨ u = backslash then [backslash, u]
  else
    match controlLetter? u with
    | some letter => [backslash, letter]
    | none => if u < 0x20 ∨ isHigh u ∨ isLow u then hexEscape u else [u]

def quotedBody : Text → Text
  | [] => []
  | [u] => quotedUnit u
  | u :: v :: rest =>
    if isHigh u && isLow v then u :: v :: quotedBody rest
    else quotedUnit u ++ quotedBody (v :: rest)

def quoted (t : Text) : Text := quote :: (quotedBody t ++ [quote])

/-- Texts between brackets, separated by single marks. -/
def listed (parts : List Text) : Text := 0x5B :: (join [0x2C] parts ++ [0x5D])

end Text

end CommandText
