import CommandText.Value.Basic

/-!
# Reading JSON

A strict reader: four blank units between tokens, numerals without leading zeros, no control units
inside quotes, and nothing after the value. Where an object repeats a name the last value stays in
the first place. A value nested in lists and objects is read under a budget that no text can exceed,
as every bracket and every separator takes up a unit of the text.
-/

namespace CommandText

namespace Value

namespace Json

def isGap (u : UInt16) : Bool := u == 0x20 || u == 0x09 || u == 0x0A || u == 0x0D

def skipGap (t : Text) : Text := t.dropWhile isGap

/-- The unit that a letter names after a backslash. -/
def escaped? (letter : UInt16) : Option UInt16 :=
  if letter = Text.quote ∨ letter = Text.backslash ∨ letter = 0x2F then some letter
  else if letter = 0x62 then some 0x08
  else if letter = 0x74 then some 0x09
  else if letter = 0x6E then some 0x0A
  else if letter = 0x66 then some 0x0C
  else if letter = 0x72 then some 0x0D
  else none

def hexUnit? (a b c d : UInt16) : Option UInt16 := do
  let a ← Text.hexValue? a
  let b ← Text.hexValue? b
  let c ← Text.hexValue? c
  let d ← Text.hexValue? d
  return (((a * 0x10 + b) * 0x10 + c) * 0x10 + d).toUInt16

/-- The units that stand for themselves inside quotes. -/
def isQuotable (u : UInt16) : Bool := 0x20 ≤ u

/-- Reads a quoted text from behind its opening quote. -/
def readText (isQuotable : UInt16 → Bool) : Text → Option (Text × Text)
  | [] => none
  | u :: rest =>
    if u = Text.quote then some ([], rest)
    else if u = Text.backslash then
      match rest with
      | [] => none
      | letter :: rest =>
        if letter = 0x75 then
          match rest with
          | a :: b :: c :: d :: rest =>
            match hexUnit? a b c d, readText isQuotable rest with
            | some v, some (t, rest) => some (v :: t, rest)
            | _, _ => none
          | _ => none
        else
          match escaped? letter, readText isQuotable rest with
          | some v, some (t, rest) => some (v :: t, rest)
          | _, _ => none
    else if isQuotable u then
      match readText isQuotable rest with
      | some (t, rest) => some (u :: t, rest)
      | none => none
    else none

def readFraction (t : Text) : Option (Text × Text) :=
  match t with
  | [] => some ([], [])
  | u :: rest =>
    if u = 0x2E then
      match Text.digitsOff rest with
      | ([], _) => none
      | (ds, rest) => some (ds, rest)
    else some ([], t)

/-- Reads a numeral: sign, whole part without leading zeros, fraction, power of ten. -/
def readNumeral (t : Text) : Option (Number × Text) :=
  let (negative, t) := match t with
    | u :: rest => if u = 0x2D then (true, rest) else (false, t)
    | [] => (false, [])
  match Text.digitsOff t with
  | ([], _) => none
  | (d :: ds, rest) =>
    if d = 0x30 ∧ ds ≠ [] then none
    else do
      let (fraction, rest) ← readFraction rest
      let (power, rest) ← Number.readPower rest
      return (Number.ofParts negative (d :: ds) fraction power, rest)

def readAtom (t : Text) : Option (Value × Text) :=
  match Text.after? "null" t with
  | some rest => some (.null, rest)
  | none =>
    match Text.after? "true" t with
    | some rest => some (.bool true, rest)
    | none =>
      match Text.after? "false" t with
      | some rest => some (.bool false, rest)
      | none => (readNumeral t).map fun (x, rest) => (.number x, rest)

mutual

def readValue : Nat → Text → Option (Value × Text)
  | 0, _ => none
  | budget + 1, t =>
    match skipGap t with
    | [] => none
    | u :: rest =>
      if u = Text.quote then (readText isQuotable rest).map fun (s, rest) => (.text s, rest)
      else if u = 0x5B then
        match skipGap rest with
        | 0x5D :: rest => some (.list [], rest)
        | _ => (readItems budget rest).map fun (items, rest) => (.list items, rest)
      else if u = 0x7B then
        match skipGap rest with
        | 0x7D :: rest => some (.object [], rest)
        | _ => (readFields budget rest).map fun (fields, rest) => (ofFields fields, rest)
      else readAtom (u :: rest)

def readItems : Nat → Text → Option (List Value × Text)
  | 0, _ => none
  | budget + 1, t =>
    match readValue budget t with
    | none => none
    | some (v, rest) =>
      match skipGap rest with
      | 0x2C :: rest => (readItems budget rest).map fun (items, rest) => (v :: items, rest)
      | 0x5D :: rest => some ([v], rest)
      | _ => none

def readFields : Nat → Text → Option (List (Text × Value) × Text)
  | 0, _ => none
  | budget + 1, t =>
    match skipGap t with
    | 0x22 :: rest =>
      match readText isQuotable rest with
      | none => none
      | some (name, rest) =>
        match skipGap rest with
        | 0x3A :: rest =>
          match readValue budget rest with
          | none => none
          | some (v, rest) =>
            match skipGap rest with
            | 0x2C :: rest =>
              (readFields budget rest).map fun (fields, rest) => ((name, v) :: fields, rest)
            | 0x7D :: rest => some ([(name, v)], rest)
            | _ => none
        | _ => none
    | _ => none

end

/-- The value that a whole text writes, none if the text is not a single value. -/
def read (t : Text) : Option Value :=
  match readValue (2 * t.length + 1) t with
  | some (v, rest) => if (skipGap rest).isEmpty then some v else none
  | none => none

end Json

end Value

end CommandText
