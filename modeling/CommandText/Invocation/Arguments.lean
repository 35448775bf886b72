import CommandText.Table

/-!
# Arguments of an invocation

Arguments are read from left to right: flags, definitions of variables, and words. Everything behind
a double dash is a word. The first argument that is none of these is a usage error.
-/

namespace CommandText

inductive UsageError where
  | missingDefinition (option : Text)
  | invalidDefinition (definition : Text)
  | unknownOption (option : Text)
  | missingText

namespace UsageError

def message : UsageError → Text
  | missingDefinition option => "Missing NAME=VALUE after " ++ option
  | invalidDefinition definition =>
    "Invalid definition '" ++ definition ++ "', expected NAME=VALUE"
  | unknownOption option => "Unknown option: " ++ option
  | missingText => "Missing command text"

end UsageError

inductive Flag where
  | help
  | preserveQuotes
  | json
  | noEnv
  | verbose
  deriving DecidableEq

namespace Flag

def ofText? (t : Text) : Option Flag :=
  if t = "--preserve-quotes" ∨ t = "-q" then some preserveQuotes
  else if t = "--json" ∨ t = "-j" then some json
  else if t = "--no-env" then some noEnv
  else if t = "--verbose" ∨ t = "-v" then some verbose
  else if t = "--help" ∨ t = "-h" then some help
  else none

end Flag

/-- What the arguments ask for. -/
structure Arguments where
  help : Bool := false
  preserveQuotes : Bool := false
  json : Bool := false
  useEnv : Bool := true
  verbose : Bool := false
  defines : Table Text := ∅
  words : List Text := []

namespace Arguments

def raise (a : Arguments) : Flag → Arguments
  | .help => { a with help := true }
  | .preserveQuotes => { a with preserveQuotes := true }
  | .json => { a with json := true }
  | .noEnv => { a with useEnv := false }
  | .verbose => { a with verbose := true }

def separator : Text := "--"

def isDefine (t : Text) : Bool := t == "--define" || t == "-D"

/-- Starts with a dash and is not a single dash. -/
def isDashed (t : Text) : Bool :=
  match t with
  | u :: _ :: _ => u == 0x2D
  | _ => false

/-- Name and value of a definition, cut at its first equals sign; the name is not empty. -/
def definition? (t : Text) : Option (Text × Text) :=
  match t.cut? Text.equals with
  | some (name, value) => if name = [] then none else some (name, value)
  | none => none

/-- Reads arguments onto those that were read before. -/
def readOnto (a : Arguments) : List Text → Except UsageError Arguments
  | [] => .ok a
  | arg :: rest =>
    if arg = separator then .ok { a with words := a.words ++ rest }
    else
      match Flag.ofText? arg with
      | some flag => readOnto (a.raise flag) rest
      | none =>
        if isDefine arg then
          match rest with
          | [] => .error (.missingDefinition arg)
          | definition :: rest =>
            match definition? definition with
            | some (name, value) =>
              readOnto { a with defines := a.defines.define name value } rest
            | none => .error (.invalidDefinition definition)
        else if isDashed arg then .error (.unknownOption arg)
        else readOnto { a with words := a.words ++ [arg] } rest

def read (argv : List Text) : Except UsageError Arguments := readOnto {} argv

end Arguments

end CommandText
