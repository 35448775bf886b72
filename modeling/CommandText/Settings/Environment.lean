import CommandText.Settings.Basic

/-!
# Settings from an environment

Entries whose name starts with the mark of the program are settings: the switches under their names,
and variables under a mark of their own. A switch takes four words and the empty text, anything else
under its name gives a warning. All other entries are left alone.
-/

namespace CommandText

namespace Settings

def mark : Text := "CMDTOK_"

def variableMark : Text := mark ++ "VAR_"

/-- The words for on and off. -/
def readSwitch (value : Text) : Option Bool :=
  if value = "1" ∨ value = "true" then some true
  else if value = "0" ∨ value = "false" ∨ value = [] then some false
  else none

def readEntry (acc : Settings × List Warning) (entry : Text × Text) : Settings × List Warning :=
  match variableMark.after? entry.1 with
  | some [] => acc
  | some name =>
    ({ acc.1 with bindings := some ((acc.1.bindings.getD ∅).insert name (some entry.2)) }, acc.2)
  | none =>
    match (mark.after? entry.1).bind Switch.ofEnvName? with
    | some switch =>
      match readSwitch entry.2 with
      | some b => (acc.1.setSwitch b switch, acc.2)
      | none => (acc.1, acc.2 ++ [.notASwitch entry.1 entry.2])
    | none => acc

def ofEnvironment (env : Environment) : Settings × List Warning :=
  env.defined.foldl readEntry ({}, [])

end Settings

end CommandText
