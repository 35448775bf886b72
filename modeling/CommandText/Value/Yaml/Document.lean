import CommandText.Value.Yaml.Place

/-!
# Documents

A document is a block of fields, a list or an object between brackets, or a scalar. The fields of a
block are lines `key: value` with the same indentation, and lines that are indented further make up
the value of the key above them. Each key of an object may be given once. The key `<<` is none: the
fields of its value are taken over where the object has no fields of its own. Only this plain
notation is read: a document with markers, tags, anchors, or lists and texts in block form is
refused.

Every reader works under a budget. A step that does not use up a unit of the document is followed by
one that does, so a budget of a few times its length is never used up.
-/

namespace CommandText

namespace Value

namespace Yaml

/-- The fields of an object so far, and the names among them that were taken over. -/
structure Mapping where
  fields : Table Value := ∅
  inherited : List Text := []

namespace Mapping

def value (m : Mapping) : Value := .object m.fields.entries

def add? (m : Mapping) (name : Text) (v : Value) : Option Mapping :=
  if (m.fields.get? name).isSome && !m.inherited.contains name then none
  else some ⟨m.fields.insert name v, m.inherited.filter (· != name)⟩

/-- Takes a field over, if there is none of that name. -/
def inherit (m : Mapping) (field : Text × Value) : Mapping :=
  if (m.fields.get? field.1).isSome then m
  else ⟨m.fields.insert field.1 field.2, field.1 :: m.inherited⟩

/-- Takes over the fields of an object, or of the objects in a list. -/
def inherit? (m : Mapping) : Value → Option Mapping
  | .object fields => some (fields.foldl inherit m)
  | .list items => items.foldlM (fun m v => v.fields?.map fun t => t.entries.foldl inherit m) m
  | _ => none

def inheritKey : Text := "<<"

/-- Adds what stands under a key; `plain` tells that the key has no quotes. -/
def store? (m : Mapping) (plain : Bool) (key v : Value) : Option Mapping :=
  match keyName? key with
  | none => none
  | some name => if plain && name == inheritKey then m.inherit? v else m.add? name v

end Mapping

def isPlain (p : Place) : Bool := p.here.head? != some 0x27 && p.here.head? != some 0x22

mutual

/-- Reads a list, an object or a scalar. Inside lists and objects a value may be left out. -/
def readNode : (budget : Nat) → (inFlow : Bool) → (least : Nat) → Place → Option (Value × Place)
  | 0, _, _, _ => none
  | budget + 1, inFlow, least, p =>
    match p.here with
    | [] => none
    | u :: rest =>
      if u = 0x5B then
        (readItems budget least { p with here := rest }).map fun (items, q) => (.list items, q)
      else if u = 0x7B then
        (readFields budget least {} { p with here := rest }).map fun (m, q) => (m.value, q)
      else if u = 0x27 ∨ u = 0x22 then readQuoted p
      else if startsPlain inFlow p.here then readPlain inFlow least p
      else if inFlow && (isFlowMark u || u == 0x3A) then some (.null, p)
      else none

def readPair : (budget : Nat) → (least : Nat) → Place → Option (Value × Option Value × Place)
  | 0, _, _ => none
  | budget + 1, least, p =>
    match readNode budget true least p with
    | none => none
    | some (key, q) =>
      let q := q.skip
      match q.here with
      | 0x3A :: rest =>
        if p.sameLine q then
          (readNode budget true least (Place.skip { q with here := rest })).map fun (v, q) =>
            (key, some v, q)
        else none
      | _ => some (key, none, q)

def readItems : (budget : Nat) → (least : Nat) → Place → Option (List Value × Place)
  | 0, _, _ => none
  | budget + 1, least, p =>
    let p := p.skip
    match p.here with
    | [] => none
    | 0x5D :: rest => some ([], { p with here := rest })
    | 0x2C :: _ => none
    | _ =>
      match readPair budget least p with
      | none => none
      | some (key, value, q) =>
        let item := match value with
          | none => some key
          | some v => (Mapping.store? {} (isPlain p) key v).map Mapping.value
        match item with
        | none => none
        | some v =>
          let q := q.skip
          match q.here with
          | 0x2C :: rest =>
            (readItems budget least { q with here := rest }).map fun (items, q) => (v :: items, q)
          | 0x5D :: rest => some ([v], { q with here := rest })
          | _ => none

def readFields : (budget : Nat) → (least : Nat) → Mapping → Place → Option (Mapping × Place)
  | 0, _, _, _ => none
  | budget + 1, least, m, p =>
    let p := p.skip
    match p.here with
    | [] => none
    | 0x7D :: rest => some (m, { p with here := rest })
    | 0x2C :: _ => none
    | _ =>
      match readPair budget least p with
      | none => none
      | some (key, value, q) =>
        match m.store? (isPlain p) key (value.getD .null) with
        | none => none
        | some m =>
          let q := q.skip
          match q.here with
          | 0x2C :: rest => readFields budget least m { q with here := rest }
          | 0x7D :: rest => some (m, { q with here := rest })
          | _ => none

end

def afterColon? (key afterKey : Place) : Option Place :=
  let q := afterKey.skipBlanks
  match q.here with
  | 0x3A :: rest =>
    if key.sameLine q && isPlainBreak false rest then some { q with here := rest } else none
  | _ => none

mutual

/-- Reads what starts a line: a block of fields, or else a single node. -/
def readBlock : (budget : Nat) → (least : Nat) → Place → Option (Value × Place)
  | 0, _, _ => none
  | budget + 1, least, p =>
    match readNode budget false least p with
    | none => none
    | some (v, q) =>
      if p.tabbed || (afterColon? p q).isNone then some (v, q)
      else (readLines budget least {} p).map fun (m, q) => (m.value, q)

/-- Reads the fields of a block from one of its lines on. -/
def readLines : (budget : Nat) → (least : Nat) → Mapping → Place → Option (Mapping × Place)
  | 0, _, _, _ => none
  | budget + 1, least, m, p =>
    if p.tabbed then none
    else
      match readNode budget false least p with
      | none => none
      | some (key, q) =>
        match (afterColon? p q).bind (readBelow budget p.indent) with
        | none => none
        | some (v, q) =>
          match m.store? (isPlain p) key v with
          | none => none
          | some m =>
            let q := q.skip
            if q.here.isEmpty || q.indent < p.indent then some (m, q)
            else if p.sameLine q || p.indent < q.indent then none
            else readLines budget least m q

/-- Reads the value of a key whose line has the given indentation: what follows in the line, or what
is indented further below it, or null. -/
def readBelow : (budget : Nat) → (indent : Nat) → Place → Option (Value × Place)
  | 0, _, _ => none
  | budget + 1, indent, p =>
    let q := p.skip
    if q.here.isEmpty then some (.null, q)
    else if p.sameLine q then readNode budget false (indent + 1) q
    else if indent < q.indent then readBlock budget (indent + 1) q
    else some (.null, q)

end

/-- A line that would start or end one of several documents. -/
def isMarker (line : Text) : Bool :=
  [Text.ofString "---", Text.ofString "..."].any fun marker =>
    (Text.after? marker line).any (isPlainBreak false)

/-- The value of a document, none if it is malformed; a document without content is null. -/
def read (t : Text) : Option Value :=
  let t := if t.head? = some 0xFEFF then t.tail else t
  let lines := (unifyLineEnds t).splitOn Text.newline
  if t.contains Text.nul || lines.any isMarker then none
  else
    let start := match lines with
      | [] => Place.ofLine [] []
      | line :: below => Place.ofLine line below
    let p := start.skip
    if p.here.isEmpty then some .null
    else
      match readBlock (4 * t.length + 4) p.indent p with
      | some (v, q) => if q.skip.here.isEmpty then some v else none
      | none => none

end Yaml

end Value

end CommandText
