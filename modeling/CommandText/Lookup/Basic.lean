import CommandText.Table
import CommandText.Text.Upper

/-!
# Variable lookups

A lookup gives each variable name a value or none. Lookups come from a table of variables, from an
environment, or from a row of lookups of which the first with a value answers. In an environment the
empty name is never found, and names may be compared without regard to case, in which case the first
entry of a name counts.
-/

namespace CommandText

/-- The value of each variable that has one. -/
abbrev Lookup := Text → Option Text

/-- Named entries, each of which may have been left without a value. -/
abbrev Bindings := Table (Option Text)

namespace Bindings

def value? (b : Bindings) (name : Text) : Option Text := (b.get? name).join

/-- The entries that have a value, in listing order. -/
def defined (b : Bindings) : List (Text × Text) :=
  b.entries.filterMap fun (name, value) => value.map fun v => (name, v)

end Bindings

/-- The entries that a program is started with. -/
abbrev Environment := Bindings

namespace Lookup

def none : Lookup := fun _ => Option.none

def ofTable (t : Table Text) : Lookup := t.get?

/-- Looks names up among all entries, the empty name included. -/
def ofRecord (entries : Bindings) : Lookup := entries.value?

def fold (ignoreCase : Bool) (name : Text) : Text := if ignoreCase then name.upper else name

/-- The values of an environment under the names as they are compared. Entries without a name or
without a value are left out, and of several entries for a name the first one counts. -/
def snapshot (env : Environment) (ignoreCase : Bool) : Table Text :=
  env.defined.foldl
    (fun t e => if e.1 = [] then t else t.insertNew (fold ignoreCase e.1) e.2) ∅

/-- Looks names up in an environment; the empty name is never found. -/
def ofEnvironment (env : Environment) (ignoreCase : Bool) : Lookup :=
  let known := snapshot env ignoreCase
  fun name => if name = [] then Option.none else known.get? (fold ignoreCase name)

/-- The first lookup with a value answers. -/
def chain (lookups : List Lookup) : Lookup := fun name => lookups.findSome? fun f => f name

end Lookup

end CommandText
