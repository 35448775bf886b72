import CommandText.Settings.Store

/-!
# The store as three variables

What a store keeps can be kept in three variables that are written one after another: the settings,
each of which may be open, a mark that they have been loaded, and the file that they were found in.
A load forgets the file first, keeps the one that its search finds, and comes to the settings and
the mark last. The three variables could come apart, settings without the mark or a file that other
settings came from, but no request leaves them like that: each takes the variables of a store to the
variables of the store that `Store.handle` leaves.
-/

namespace CommandText

namespace Settings

/-- The defaults as a source. -/
def ofDefaults : Settings where
  debug := some false
  preserveQuotes := some false
  useEnv := some true
  bindings := some ∅

/-- Lays a source over another one. What neither of them says stays open. -/
def merge (s t : Settings) : Settings where
  debug := t.debug.or s.debug
  preserveQuotes := t.preserveQuotes.or s.preserveQuotes
  useEnv := t.useEnv.or s.useEnv
  bindings := match t.bindings with
    | some b => some ((s.bindings.getD ∅).union b)
    | none => s.bindings

end Settings

namespace Effective

def toSettings (e : Effective) : Settings where
  debug := some e.debug
  preserveQuotes := some e.preserveQuotes
  useEnv := some e.useEnv
  bindings := some e.bindings

theorem switch?_toSettings (e : Effective) (w : Switch) :
    e.toSettings.switch? w = some (e.switch w) := by
  cases w <;> rfl

theorem toSettings_defaults : defaults.toSettings = Settings.ofDefaults := rfl

theorem toSettings_update (e : Effective) (s : Settings) :
    (e.update s).toSettings = e.toSettings.merge s := by
  unfold update toSettings Settings.merge
  cases s.debug <;> cases s.preserveQuotes <;> cases s.useEnv <;> cases s.bindings <;> rfl

end Effective

/-- The variables that a store is kept in. -/
structure Registers where
  settings : Settings := {}
  loaded : Bool := false
  path : Option Text := none

namespace Registers

/-- Gives the settings that a search finds and keeps the file that they are in. -/
def takeFile (r : Registers) (found : Found) : (Settings × List Warning) × Registers :=
  match found with
  | .nothing => (({}, []), r)
  | .unreadable => (({}, [.unreadableFile]), r)
  | .value path v => (Settings.ofValue v path, { r with path := some path })

def load (r : Registers) (h : Host) : Registers × List Warning :=
  let ((file, fileWarnings), r) := takeFile { r with path := none } h.found
  let (env, envWarnings) := Settings.ofEnvironment h.env
  let r := { r with settings := (Settings.ofDefaults.merge file).merge env }
  ({ r with loaded := true }, fileWarnings ++ envWarnings)

def prepare (home : Host) (r : Registers) : Registers × List Warning :=
  if r.loaded then (r, []) else r.load home

def handle (home : Host) (r : Registers) : Store.Request → Registers × List Warning
  | .load h => r.load h
  | .set values =>
    let (r, warnings) := r.prepare home
    ({ r with settings := r.settings.merge values }, warnings)
  | .read => r.prepare home
  | .reset => ({}, [])

def ofStore (s : Store) : Registers :=
  match s.loaded with
  | some l => ⟨l.settings.toSettings, true, l.path⟩
  | none => {}

theorem load_eq (r : Registers) (h : Host) :
    r.load h = (ofStore ⟨some (Loaded.ofHost h).1⟩, (Loaded.ofHost h).2) := by
  unfold load takeFile Loaded.ofHost Loaded.ofFound ofStore
  simp only [Effective.toSettings_update, Effective.toSettings_defaults]
  cases h.found <;> rfl

theorem prepare_ofStore (home : Host) (s : Store) :
    (ofStore s).prepare home = (ofStore ⟨some (s.current home).1⟩, (s.current home).2) := by
  obtain ⟨loaded⟩ := s
  cases loaded with
  | some l => rfl
  | none => exact load_eq {} home

/-- A request does to the variables what it does to the store. -/
theorem handle_ofStore (home : Host) (s : Store) (r : Store.Request) :
    (ofStore s).handle home r = (ofStore (s.handle home r).1, (s.handle home r).2) := by
  cases r with
  | load h => exact load_eq (ofStore s) h
  | set values =>
    unfold handle
    rw [prepare_ofStore]
    simp only [ofStore, Store.handle, Loaded.set, Effective.toSettings_update]
  | read => exact prepare_ofStore home s
  | reset => rfl

end Registers

end CommandText
