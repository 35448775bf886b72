import CommandText.Settings.Document
import CommandText.Settings.Environment

/-!
# The store of settings

Settings are loaded from a file, if one was found, and from an environment, laid in this order over
the defaults. How files are searched for is not decided here: a host comes with the outcome of its
search, which may be any. The store keeps what was loaded last; the first use of an empty store
loads from where the program runs. Values that are set later are laid over what is there until the
next load.
-/

namespace CommandText

/-- The outcome of a search for a file with settings. -/
inductive Found where
  | nothing
  | unreadable
  | value (path : Text) (v : Value)

/-- Where a program runs: what a search for settings finds there, and the environment, with the way
in which its names are compared. -/
structure Host where
  found : Found
  env : Environment
  ignoreCase : Bool

/-- The settings in effect, and the file that they were found in. -/
structure Loaded where
  settings : Effective
  path : Option Text

/-- What the outcome of a search contributes: its settings and the file they come from. -/
def Found.settings : Found → (Settings × Option Text) × List Warning
  | .nothing => (({}, none), [])
  | .unreadable => (({}, none), [.unreadableFile])
  | .value path v =>
    let (settings, warnings) := Settings.ofValue v path
    ((settings, some path), warnings)

namespace Loaded

/-- Lays what a search has found and then the environment over the defaults. -/
def ofFound (found : Found) (env : Environment) : Loaded × List Warning :=
  let ((file, path), fileWarnings) := found.settings
  let (env, envWarnings) := Settings.ofEnvironment env
  (⟨(Effective.defaults.update file).update env, path⟩, fileWarnings ++ envWarnings)

def ofHost (h : Host) : Loaded × List Warning := ofFound h.found h.env

def set (l : Loaded) (s : Settings) : Loaded := { l with settings := l.settings.update s }

end Loaded

/-- What was loaded last, if anything was. -/
structure Store where
  loaded : Option Loaded := none

namespace Store

/-- A use of the store. -/
inductive Request where
  | load (h : Host)
  | set (s : Settings)
  | read
  | reset

/-- The loaded settings, which are loaded from the given host if there are none. -/
def current (home : Host) (s : Store) : Loaded × List Warning :=
  match s.loaded with
  | some l => (l, [])
  | none => Loaded.ofHost home

def handle (home : Host) (s : Store) : Request → Store × List Warning
  | .load h =>
    let (l, warnings) := Loaded.ofHost h
    (⟨some l⟩, warnings)
  | .set values =>
    let (l, warnings) := s.current home
    (⟨some (l.set values)⟩, warnings)
  | .read =>
    let (l, warnings) := s.current home
    (⟨some l⟩, warnings)
  | .reset => ({}, [])

end Store

end CommandText
