import CommandText.Value.Basic

/-!
# Plain scalars

A scalar that is written without quotes stands for null, a truth value, a number or a point in time
if it has the form of one, and for itself otherwise. A number too great to be finite stands for
itself, too. Points in time are kept as objects without fields, since nothing asks for their parts.
-/

namespace CommandText

namespace Value

namespace Yaml

def nulls : List Text := ["~", "null", "Null", "NULL"]

def trues : List Text := ["true", "True", "TRUE"]

def falses : List Text := ["false", "False", "FALSE"]

def signOff : Text → Bool × Bool × Text
  | [] => (false, false, [])
  | u :: rest =>
    if u = 0x2D then (true, true, rest)
    else if u = 0x2B then (true, false, rest)
    else (false, false, u :: rest)

def digitsIn? (base acc : Nat) : Text → Option Nat
  | [] => some acc
  | u :: rest =>
    match Text.hexValue? u with
    | some d => if d < base then digitsIn? base (base * acc + d) rest else none
    | none => none

/-- A natural number: digits, in base ten unless a letter behind a zero names another base. -/
def natural? (t : Text) : Option Nat :=
  let (base, digits) := match t with
    | 0x30 :: 0x62 :: rest => (2, rest)
    | 0x30 :: 0x6F :: rest => (8, rest)
    | 0x30 :: 0x78 :: rest => (16, rest)
    | _ => (10, t)
  if digits = [] then none else digitsIn? base 0 digits

/-- A decimal with a point or a power of ten. The whole part may only be left out if there is no
sign, and then the fraction may not. -/
def decimal? (signed negative : Bool) (t : Text) : Option Number :=
  let (whole, rest) := Text.digitsOff t
  let (fraction, rest) := match rest with
    | 0x2E :: rest => Text.digitsOff rest
    | _ => ([], rest)
  if whole = [] ∧ (signed ∨ fraction = []) then none
  else
    match Number.readPower rest with
    | some (power, []) => some (Number.ofParts negative whole fraction power)
    | _ => none

def infinity? (signed negative : Bool) (t : Text) : Option Number :=
  if t ∈ [".inf", ".Inf", ".INF"].map Text.ofString then some (.infinite negative)
  else if !signed ∧ t ∈ [".nan", ".NaN", ".NAN"].map Text.ofString then some .nan
  else none

def number? (t : Text) : Option Number :=
  let (signed, negative, rest) := signOff t
  let decimal := match natural? rest with
    | some n => some (Number.ofDecimal negative n 0)
    | none => decimal? signed negative rest
  match decimal with
  | some x => if x.isFinite then some x else none
  | none => infinity? signed negative rest

/-- Cuts off from `least` to `most` digits, as many as there are. -/
def digitsOff? (least most : Nat) (t : Text) : Option Text :=
  let n := min most (t.takeWhile Text.isDigit).length
  if least ≤ n then some (t.drop n) else none

def unitOff? (u : UInt16) (t : Text) : Option Text := Text.after? [u] t

def dateOff? (least : Nat) (t : Text) : Option Text := do
  let t ← digitsOff? 4 4 t
  let t ← unitOff? 0x2D t
  let t ← digitsOff? least 2 t
  let t ← unitOff? 0x2D t
  digitsOff? least 2 t

def isWhite (u : UInt16) : Bool := u == 0x20 || u == 0x09

/-- What stands between a date and a time: a letter, or white space. -/
def timeMarkOff? (t : Text) : Option Text :=
  match t with
  | [] => none
  | u :: rest =>
    if u = 0x54 ∨ u = 0x74 then some rest
    else if isWhite u then some (rest.dropWhile isWhite)
    else none

def timeOff? (t : Text) : Option Text := do
  let t ← digitsOff? 1 2 t
  let t ← unitOff? 0x3A t
  let t ← digitsOff? 2 2 t
  let t ← unitOff? 0x3A t
  let t ← digitsOff? 2 2 t
  return match t with
    | 0x2E :: rest => rest.dropWhile Text.isDigit
    | _ => t

/-- Nothing, or an offset from universal time. -/
def isZone (t : Text) : Bool :=
  match t.dropWhile isWhite with
  | [] => t.isEmpty
  | [0x5A] => true
  | u :: rest =>
    (u == 0x2B || u == 0x2D) &&
      match digitsOff? 1 2 rest with
      | some [] => true
      | some (0x3A :: rest) => digitsOff? 2 2 rest == some []
      | _ => false

def isTime (t : Text) : Bool :=
  dateOff? 2 t == some [] ||
    match (dateOff? 1 t).bind timeMarkOff? with
    | some rest => (timeOff? rest).any isZone
    | none => false

/-- The value of a plain scalar. -/
def resolve (t : Text) : Value :=
  if t ∈ nulls then .null
  else if t ∈ trues then .bool true
  else if t ∈ falses then .bool false
  else
    match number? t with
    | some x => .number x
    | none => if isTime t then .object [] else .text t

/-- The name that a key stands for; lists and objects cannot be names. -/
def keyName? : Value → Option Text
  | .missing | .null => some "null"
  | .bool true => some "true"
  | .bool false => some "false"
  | .number x => some x.written
  | .text t => some t
  | .list _ | .object _ => none

end Yaml

end Value

end CommandText
