import CommandText.Number.Numeral
import CommandText.Table
import CommandText.Text.Quoted

/-!
# Values

The values that configuration documents hold and that parsers put together: null, truth values,
numbers, texts, lists and objects. A value may also be missing, which no document can say. The
written form has no blanks and quotes texts as `Text.quoted` does; what is missing, and numbers that
are not finite, are written as null.
-/

namespace CommandText

inductive Value where
  | missing
  | null
  | bool (b : Bool)
  | number (x : Number)
  | text (t : Text)
  | list (items : List Value)
  | object (fields : List (Text × Value))
  deriving Inhabited

namespace Value

/-- An object of the given fields, one for each name and in listing order. -/
def ofFields (fields : List (Text × Value)) : Value := .object (Table.ofList fields).entries

def fields? : Value → Option (Table Value)
  | .object fields => some (Table.ofList fields)
  | _ => none

mutual

def written : Value → Text
  | .missing => "null"
  | .null => "null"
  | .bool true => "true"
  | .bool false => "false"
  | .number x => if x.isFinite then x.written else "null"
  | .text t => t.quoted
  | .list items => Text.listed (writtenItems items)
  | .object fields => 0x7B :: (Text.join [0x2C] (writtenFields fields) ++ [0x7D])

def writtenItems : List Value → List Text
  | [] => []
  | v :: rest => v.written :: writtenItems rest

def writtenFields : List (Text × Value) → List Text
  | [] => []
  | (name, v) :: rest => (name.quoted ++ 0x3A :: v.written) :: writtenFields rest

end

/-- The text that describes a value on its own. -/
def shown : Value → Text
  | .missing => "undefined"
  | v => v.written

theorem writtenItems_eq_map (items : List Value) : writtenItems items = items.map written := by
  induction items with
  | nil => rfl
  | cons v rest ih => simp [writtenItems, ih]

end Value

end CommandText
