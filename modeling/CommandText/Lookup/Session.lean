import CommandText.Lookup.Basic

/-!
# Lookups described by their sources

A source describes a lookup as a tree: tables of entries and environments at the leaves, rows of
sources above them. The tables belong to whoever made them and may change later. A session makes the
lookup of a source once and then answers names from it, while the tables that it was made from go on
changing.
-/

namespace CommandText

/-- Where a lookup takes its values from. -/
inductive Source where
  | nothing
  | record (entries : Bindings)
  | environment (entries : Environment) (ignoreCase : Bool)
  /-- The environment of the running program, which no session changes, with names compared as the
  platform has it. -/
  | ambient (entries : Environment) (ignoreCase : Bool)
  | chain (sources : List Source)

namespace Source

mutual

def lookup : Source → Lookup
  | nothing => Lookup.none
  | record entries => Lookup.ofRecord entries
  | environment entries ignoreCase => Lookup.ofEnvironment entries ignoreCase
  | ambient entries ignoreCase => Lookup.ofEnvironment entries ignoreCase
  | chain sources => Lookup.chain (lookups sources)

def lookups : List Source → List Lookup
  | [] => []
  | s :: rest => s.lookup :: lookups rest

end

mutual

/-- The tables at the leaves that can change, from left to right. -/
def stores : Source → List Bindings
  | nothing => []
  | record entries => [entries]
  | environment entries _ => [entries]
  | ambient _ _ => []
  | chain sources => storesOf sources

def storesOf : List Source → List Bindings
  | [] => []
  | s :: rest => s.stores ++ storesOf rest

end

end Source

/-- A lookup and the present state of the tables that it was made from. -/
structure Session where
  stores : List Bindings
  lookup : Lookup

namespace Session

/-- A question for a name, or a change to the table with a number. -/
inductive Step where
  | get (name : Text)
  | set (store : Nat) (name : Text) (value : Option Text)
  | delete (store : Nat) (name : Text)

def start (s : Source) : Session := ⟨s.stores, s.lookup⟩

/-- Carries out a change; a question changes nothing. -/
def after (s : Session) : Step → Session
  | .get _ => s
  | .set i name value => { s with stores := s.stores.modify i fun t => t.insert name value }
  | .delete i name => { s with stores := s.stores.modify i fun t => t.erase name }

def answers (s : Session) : List Step → List (Option Text)
  | [] => []
  | .get name :: steps => s.lookup name :: answers s steps
  | step :: steps => answers (s.after step) steps

end Session

end CommandText
