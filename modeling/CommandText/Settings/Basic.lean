import CommandText.Lookup.Basic

/-!
# Settings

Three switches and a table of variables. A source of settings says something about some of them and
nothing about the others, and the settings in effect come from laying such sources over the
defaults: a switch takes the value of the last source that sets it, and tables of variables are
joined name by name. What a source says that cannot be used is reported by warnings.
-/

namespace CommandText

/-- The switches among the settings. -/
inductive Switch where
  | debug
  | preserveQuotes
  | useEnv
  deriving DecidableEq

namespace Switch

def all : List Switch := [debug, preserveQuotes, useEnv]

def name : Switch → Text
  | debug => "debug"
  | preserveQuotes => "preserveQuotes"
  | useEnv => "useEnv"

/-- The last part of the name of a switch in an environment. -/
def envName : Switch → Text
  | debug => "DEBUG"
  | preserveQuotes => "PRESERVE_QUOTES"
  | useEnv => "USE_ENV"

def ofName? (t : Text) : Option Switch := all.find? fun s => s.name == t

def ofEnvName? (t : Text) : Option Switch := all.find? fun s => s.envName == t

end Switch

/-- What one source has to say. -/
structure Settings where
  debug : Option Bool := none
  preserveQuotes : Option Bool := none
  useEnv : Option Bool := none
  bindings : Option Bindings := none

namespace Settings

def switch? (s : Settings) : Switch → Option Bool
  | .debug => s.debug
  | .preserveQuotes => s.preserveQuotes
  | .useEnv => s.useEnv

def setSwitch (s : Settings) (b : Bool) : Switch → Settings
  | .debug => { s with debug := some b }
  | .preserveQuotes => { s with preserveQuotes := some b }
  | .useEnv => { s with useEnv := some b }

end Settings

/-- The settings in effect. -/
structure Effective where
  debug : Bool
  preserveQuotes : Bool
  useEnv : Bool
  bindings : Bindings

namespace Effective

def defaults : Effective where
  debug := false
  preserveQuotes := false
  useEnv := true
  bindings := ∅

/-- Lays a source over the settings in effect. -/
def update (e : Effective) (s : Settings) : Effective where
  debug := s.debug.getD e.debug
  preserveQuotes := s.preserveQuotes.getD e.preserveQuotes
  useEnv := s.useEnv.getD e.useEnv
  bindings := match s.bindings with
    | some t => e.bindings.union t
    | none => e.bindings

def switch (e : Effective) : Switch → Bool
  | .debug => e.debug
  | .preserveQuotes => e.preserveQuotes
  | .useEnv => e.useEnv

theorem switch_update (e : Effective) (s : Settings) (w : Switch) :
    (e.update s).switch w = (s.switch? w).getD (e.switch w) := by
  cases w <;> rfl

end Effective

/-- What a source says that is not used, and why. -/
inductive Warning where
  | notAnObject (source : Text)
  | notABoolean (name source : Text)
  | variablesNotAnObject (source : Text)
  | variableNotAText (name source : Text)
  | unknownOption (name source : Text)
  | notASwitch (name value : Text)
  | unreadableFile

namespace Warning

def message : Warning → Text
  | notAnObject source => "[cmdtok] Ignoring config from " ++ source ++ ": expected an object"
  | notABoolean name source =>
    "[cmdtok] Ignoring \"" ++ name ++ "\" from " ++ source ++ ": expected a boolean"
  | variablesNotAnObject source =>
    "[cmdtok] Ignoring \"variables\" from " ++ source ++ ": expected an object"
  | variableNotAText name source =>
    "[cmdtok] Ignoring variable \"" ++ name ++ "\" from " ++ source ++ ": expected a string"
  | unknownOption name source =>
    "[cmdtok] Ignoring unknown option \"" ++ name ++ "\" from " ++ source
  | notASwitch name value =>
    "[cmdtok] Ignoring " ++ name ++ "=" ++ value ++ ": expected 1, 0, true or false"
  | unreadableFile => "[cmdtok] Failed to load config file:"

end Warning

end CommandText
