import CommandText.Peg.Basic
import CommandText.Value.Basic

/-!
# Parsers for values

A parser put together at run time has no type of its own, so all its parts yield values: a unit is a
text of length one, a sequence is a list of two, a repetition is a list. The functions that such a
parser applies to what it finds are total: on values of a shape that they are not meant for, their
result is missing. A recipe describes such a parser part by part.
-/

namespace CommandText

namespace Value

def ofUnit (u : UInt16) : Value := .text [u]

def pair (v w : Value) : Value := .list [v, w]

def first : Value → Value
  | .list (v :: _) => v
  | _ => .missing

def second : Value → Value
  | .list (_ :: w :: _) => w
  | _ => .missing

/-- The text of a value that is one, and otherwise the empty text. -/
def asText : Value → Text
  | .text t => t
  | _ => []

def joined : Value → Value
  | .list items => .text (items.map asText).flatten
  | _ => .missing

def size : Value → Value
  | .list items => .number (.ofNat items.length)
  | .text t => .number (.ofNat t.length)
  | _ => .missing

def singleton (v : Value) : Value := .list [v]

def reversed : Value → Value
  | .list items => .list items.reverse
  | _ => .missing

end Value

/-- The functions that a recipe may apply. -/
inductive Change where
  | const (v : Value)
  | size
  | singleton
  | joined
  | reversed

namespace Change

def apply : Change → Value → Value
  | const v, _ => v
  | size, v => v.size
  | singleton, v => v.singleton
  | joined, v => v.joined
  | reversed, v => v.reversed

end Change

/-- A parser for values as it is described, before its parts are checked. -/
inductive Recipe where
  | any
  | unit (t : Text)
  | seq (p q : Recipe)
  | alt (p q : Recipe)
  | except (p excluded : Recipe)
  | first (p : Recipe)
  | second (p : Recipe)
  | many (p : Recipe)
  | many1 (p : Recipe)
  | joined (p : Recipe)
  | map (change : Change) (p : Recipe)

namespace Recipe

/-- Makes the parser, unless a part that is to match one unit is given another number of them. -/
def build : Recipe → Except BoundsError (Peg Value)
  | any => .ok (Peg.any.map Value.ofUnit)
  | unit t => do
    let p ← Peg.unit? t
    return p.map Value.ofUnit
  | seq p q => do
    let p ← p.build
    let q ← q.build
    return (Peg.seq p q).map fun (v, w) => Value.pair v w
  | alt p q => do
    let p ← p.build
    let q ← q.build
    return Peg.alt p q
  | except p excluded => do
    let p ← p.build
    let excluded ← excluded.build
    return Peg.except p excluded Value.shown
  | first p => do
    let p ← p.build
    return p.map Value.first
  | second p => do
    let p ← p.build
    return p.map Value.second
  | many p => do
    let p ← p.build
    return (Peg.many p).map .list
  | many1 p => do
    let p ← p.build
    return (Peg.many1 p).map .list
  | joined p => do
    let p ← p.build
    return p.map Value.joined
  | map change p => do
    let p ← p.build
    return p.map change.apply

end Recipe

end CommandText
