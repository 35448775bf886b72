import CommandText.Settings.Basic
import CommandText.Value.Basic

/-!
# Settings from a document

The fields of an object are read in their listing order. A field that is known and of the right kind
is kept, and every other field gives a warning. Variables are defined one by one, so that a variable
of the reserved name is not kept.
-/

namespace CommandText

namespace Settings

def readVariable (source : Text) (acc : Bindings × List Warning) (field : Text × Value) :
    Bindings × List Warning :=
  match field.2 with
  | .text t => (acc.1.define field.1 (some t), acc.2)
  | _ => (acc.1, acc.2 ++ [.variableNotAText field.1 source])

def readVariables (source : Text) (fields : Table Value) : Bindings × List Warning :=
  fields.entries.foldl (readVariable source) (∅, [])

def readField (source : Text) (acc : Settings × List Warning) (field : Text × Value) :
    Settings × List Warning :=
  match Switch.ofName? field.1 with
  | some switch =>
    match field.2 with
    | .bool b => (acc.1.setSwitch b switch, acc.2)
    | _ => (acc.1, acc.2 ++ [.notABoolean field.1 source])
  | none =>
    if field.1 = "variables" then
      match field.2.fields? with
      | some fields =>
        let (bindings, warnings) := readVariables source fields
        ({ acc.1 with bindings := some bindings }, acc.2 ++ warnings)
      | none => (acc.1, acc.2 ++ [.variablesNotAnObject source])
    else (acc.1, acc.2 ++ [.unknownOption field.1 source])

/-- Keeps what is usable of a value that may be anything. -/
def ofValue (raw : Value) (source : Text) : Settings × List Warning :=
  match raw.fields? with
  | some fields => fields.entries.foldl (readField source) ({}, [])
  | none => ({}, [.notAnObject source])

end Settings

end CommandText
