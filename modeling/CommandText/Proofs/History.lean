import CommandText.Proofs.Registers
import CommandText.Proofs.Sources
import Mathlib.Data.List.Basic
import Mathlib.Data.List.Induction

/-!
# What a store has come to hold

A store is used again and again: settings are loaded, set, read and forgotten. All that it holds
comes from the last time that it was loaded, on demand or because a use found it empty, and from the
values that were set since then. Such a stretch of the history is a `Store.Period`. The sources of a
period are the defaults, the file that was found on the host it was opened with, the entries of its
environment, and then each of the values that were set. A read gives every setting as the latest of
these sources has it.
-/

namespace CommandText

/-- The value is the one of the last source that has a value. -/
def Latest {σ α : Type} (setting? : σ → Option α) (sources : List σ) (v : α) : Prop :=
  ∃ before source behind, sources = before ++ source :: behind ∧ setting? source = some v ∧
    ∀ other ∈ behind, setting? other = none

theorem latest_concat {σ α : Type} {setting? : σ → Option α} {sources : List σ} {last : σ} {v : α} :
    Latest setting? (sources ++ [last]) v ↔
      setting? last = some v ∨ setting? last = none ∧ Latest setting? sources v := by
  constructor
  · rintro ⟨before, source, behind, hsplit, hsource, hbehind⟩
    rcases List.eq_nil_or_concat' behind with rfl | ⟨behind, other, rfl⟩
    · obtain ⟨-, rfl⟩ := List.append_singleton_inj.1 hsplit
      exact .inl hsource
    · have hsplit' : sources ++ [last] = (before ++ source :: behind) ++ [other] := by
        simpa using hsplit
      obtain ⟨rfl, rfl⟩ := List.append_singleton_inj.1 hsplit'
      refine .inr ⟨hbehind _ (by simp), before, source, behind, rfl, hsource, ?_⟩
      intro other' hother
      exact hbehind other' (by simp [hother])
  · rintro (hlast | ⟨hlast, before, source, behind, rfl, hsource, hbehind⟩)
    · exact ⟨sources, last, [], rfl, hlast, by simp⟩
    · refine ⟨before, source, behind ++ [last], by simp, hsource, ?_⟩
      intro other hother
      rcases List.mem_append.1 hother with hother | hother
      · exact hbehind other hother
      · rwa [List.mem_singleton.1 hother]

theorem latest_map {σ τ α : Type} {setting? : τ → Option α} {f : σ → τ} {sources : List σ} {v : α} :
    Latest setting? (sources.map f) v ↔ Latest (fun s => setting? (f s)) sources v := by
  constructor
  · rintro ⟨before, source, behind, hsplit, hsource, hbehind⟩
    obtain ⟨before', rest, rfl, -, hrest⟩ := List.map_eq_append_iff.1 hsplit
    obtain ⟨source', behind', rfl, rfl, rfl⟩ := List.map_eq_cons_iff.1 hrest
    refine ⟨before', source', behind', rfl, hsource, ?_⟩
    intro other hother
    exact hbehind (f other) (List.mem_map_of_mem hother)
  · rintro ⟨before, source, behind, rfl, hsource, hbehind⟩
    refine ⟨before.map f, f source, behind.map f, by simp, hsource, ?_⟩
    simpa using hbehind

/-- What a source contributes to the settings: a value for a switch, an entry for a variable. -/
@[ext]
structure Contribution where
  switch? : Switch → Option Bool
  binding? : Text → Option (Option Text)

def Settings.contribution (s : Settings) : Contribution := ⟨s.switch?, s.binding?⟩

/-- What the entries of an environment contribute: the words for on and off under the name of a
switch, and the variables whose names stand behind the mark for them. -/
def Environment.contribution (env : Environment) : Contribution where
  switch? w := (env.value? ("CMDTOK_" ++ w.envName)).bind Settings.readSwitch
  binding? name := if name = [] then none else (env.value? ("CMDTOK_VAR_" ++ name)).map some

theorem Settings.contribution_ofEnvironment (env : Environment) :
    (ofEnvironment env).1.contribution = env.contribution := by
  ext1
  · funext w
    exact switch?_ofEnvironment env w
  · funext name
    refine (binding?_ofEnvironment env name).trans ?_
    by_cases hname : name = []
    · simp [Environment.contribution, hname]
    · simp only [Environment.contribution, if_neg hname]
      rfl

namespace Effective

def ofSources (sources : List Settings) : Effective := sources.foldl update defaults

theorem ofSources_concat (sources : List Settings) (s : Settings) :
    ofSources (sources ++ [s]) = (ofSources sources).update s := by
  unfold ofSources
  rw [List.foldl_append]
  rfl

/-- A part of the settings that each source either decides or leaves alone is decided by the latest
source. -/
theorem view_ofSources {α : Type} (view : Effective → Option α) (setting? : Settings → Option α)
    (hsetting : ∀ e s, view (e.update s) = (setting? s).or (view e))
    (hdefaults : view defaults = setting? Settings.ofDefaults) (sources : List Settings) (v : α) :
    view (ofSources (Settings.ofDefaults :: sources)) = some v ↔
      Latest setting? (Settings.ofDefaults :: sources) v := by
  induction sources using List.reverseRecOn with
  | nil =>
    have hview : view (ofSources [Settings.ofDefaults]) = setting? Settings.ofDefaults := by
      refine (hsetting defaults Settings.ofDefaults).trans ?_
      rw [hdefaults, Option.or_self]
    have hlatest := @latest_concat _ _ setting? [] Settings.ofDefaults v
    rw [hview, ← List.nil_append [Settings.ofDefaults], hlatest]
    simp [Latest]
  | append_singleton sources s ih =>
    rw [← List.cons_append, ofSources_concat, hsetting, latest_concat, ← ih]
    cases setting? s <;> simp

theorem latest_switch (sources : List Settings) (w : Switch) :
    Latest (fun s : Settings => s.switch? w) (Settings.ofDefaults :: sources)
      ((ofSources (Settings.ofDefaults :: sources)).switch w) := by
  apply (view_ofSources (fun e => some (e.switch w)) _ _ _ sources _).1
  · rfl
  · intro e s
    rw [switch_update]
    cases s.switch? w <;> rfl
  · cases w <;> rfl

theorem get?_ofSources (sources : List Settings) (name : Text) (v : Option Text) :
    (ofSources (Settings.ofDefaults :: sources)).bindings.get? name = some v ↔
      Latest (fun s : Settings => s.binding? name) (Settings.ofDefaults :: sources) v := by
  apply view_ofSources (fun e => e.bindings.get? name)
  · intro e s
    exact e.get?_update s name
  · rfl

end Effective

theorem Loaded.ofHost_eq (h : Host) :
    (Loaded.ofHost h).1 = ⟨Effective.ofSources [Settings.ofDefaults, h.found.file,
      (Settings.ofEnvironment h.env).1], h.found.path?⟩ :=
  Loaded.ofFound_eq h.found h.env

namespace Store

/-- A use of the store, with the host that the program runs on at that time. -/
structure Call where
  home : Host
  request : Request

def behind (s : Store) (calls : List Call) : Store :=
  calls.foldl (fun s c => (s.handle c.home c.request).1) s

theorem behind_append (s : Store) (calls calls' : List Call) :
    s.behind (calls ++ calls') = (s.behind calls).behind calls' := List.foldl_append

def Request.values? : Request → Option Settings
  | .set values => some values
  | _ => none

/-- The request uses what is loaded, and it loads only if there is nothing. -/
def Request.IsUse : Request → Prop
  | .set _ => True
  | .read => True
  | _ => False

/-- There is nothing loaded: nothing came before, or the last thing was a reset. -/
def Idle (calls : List Call) : Prop := ∀ c ∈ calls.getLast?, c.request = .reset

/-- Behind the calls before it, a call loads from the host. -/
inductive Loads (before : List Call) : Call → Host → Prop where
  | asked (home h : Host) : Loads before ⟨home, .load h⟩ h
  | needed (home : Host) {r : Request} (hidle : Idle before) (huse : r.IsUse) :
      Loads before ⟨home, r⟩ home

theorem Loads.alone {before : List Call} {c : Call} {host : Host} (h : Loads before c host) :
    Loads [] c host := by
  cases h with
  | asked home => exact .asked home host
  | needed _ _ huse => exact .needed host (by simp [Idle]) huse

/-- The end of a history from the most recent load on. -/
structure Period (history : List Call) where
  before : List Call
  opening : Call
  later : List Call
  host : Host
  split : history = before ++ opening :: later
  loads : Loads before opening host
  uses : ∀ c ∈ later, c.request.IsUse

namespace Period

variable {history : List Call}

/-- The values that were set in a period, in order. -/
def values (p : Period history) : List Settings :=
  (p.opening :: p.later).filterMap fun c => c.request.values?

/-- The sources of a period, each by what it contributes: the defaults, the file, the entries of the
environment, and the values that were set. -/
def sources (p : Period history) : List Contribution :=
  Settings.ofDefaults.contribution :: p.host.found.file.contribution ::
    p.host.env.contribution :: p.values.map Settings.contribution

def layers (p : Period history) : List Settings :=
  p.host.found.file :: (Settings.ofEnvironment p.host.env).1 :: p.values

theorem sources_eq (p : Period history) :
    p.sources = (Settings.ofDefaults :: p.layers).map Settings.contribution := by
  unfold sources layers
  rw [← Settings.contribution_ofEnvironment]
  rfl

def loaded (p : Period history) : Loaded :=
  ⟨Effective.ofSources (Settings.ofDefaults :: p.layers), p.host.found.path?⟩

def extend (p : Period history) (c : Call) (huse : c.request.IsUse) : Period (history ++ [c]) where
  before := p.before
  opening := p.opening
  later := p.later ++ [c]
  host := p.host
  split := (congrArg (· ++ [c]) p.split).trans (by simp)
  loads := p.loads
  uses := by
    intro d hd
    rcases List.mem_append.1 hd with hd | hd
    · exact p.uses d hd
    · rwa [List.mem_singleton.1 hd]

def alone (p : Period history) : Period (p.opening :: p.later) where
  before := []
  opening := p.opening
  later := p.later
  host := p.host
  split := rfl
  loads := p.loads.alone
  uses := p.uses

end Period

/-- Behind every history nothing is loaded, or there is a period. -/
theorem idle_or_period (history : List Call) : Idle history ∨ Nonempty (Period history) := by
  induction history using List.reverseRecOn with
  | nil => exact .inl (by simp [Idle])
  | append_singleton calls c ih =>
    have hused (huse : c.request.IsUse) : Nonempty (Period (calls ++ [c])) := by
      rcases ih with hidle | ⟨⟨p⟩⟩
      · exact ⟨⟨calls, c, [], c.home, rfl, .needed c.home hidle huse, by simp⟩⟩
      · exact ⟨p.extend c huse⟩
    obtain ⟨home, r⟩ := c
    cases r with
    | load h => exact .inr ⟨⟨calls, _, [], h, rfl, .asked home h, by simp⟩⟩
    | set values => exact .inr (hused trivial)
    | read => exact .inr (hused trivial)
    | reset => exact .inl (by simp [Idle])

theorem loaded_of_idle {calls : List Call} (h : Idle calls) : (behind {} calls).loaded = none := by
  rcases List.eq_nil_or_concat' calls with rfl | ⟨before, ⟨home, r⟩, rfl⟩
  · rfl
  · obtain rfl : r = .reset := h ⟨home, r⟩ (by simp)
    rw [behind_append]
    rfl

theorem loaded_handle_of_isUse {r : Request} (huse : r.IsUse) (home : Host) (s : Store) :
    (s.handle home r).1.loaded =
      some ⟨r.values?.toList.foldl Effective.update (s.current home).1.settings,
        (s.current home).1.path⟩ := by
  cases r with
  | load h => cases huse
  | set values => rfl
  | read => rfl
  | reset => cases huse

theorem loaded_of_loads {before : List Call} {c : Call} {host : Host} (h : Loads before c host) :
    (behind {} (before ++ [c])).loaded =
      some ⟨c.request.values?.toList.foldl Effective.update (Loaded.ofHost host).1.settings,
        (Loaded.ofHost host).1.path⟩ := by
  rw [behind_append]
  cases h with
  | asked home h => rfl
  | needed _ hidle huse =>
    refine (loaded_handle_of_isUse huse host _).trans ?_
    rw [current, loaded_of_idle hidle]

theorem loaded_behind_uses {calls : List Call} (huses : ∀ c ∈ calls, c.request.IsUse) {s : Store}
    {l : Loaded} (h : s.loaded = some l) :
    (s.behind calls).loaded =
      some ⟨(calls.filterMap fun c => c.request.values?).foldl Effective.update l.settings,
        l.path⟩ := by
  induction calls generalizing s l with
  | nil => exact h
  | cons c calls ih =>
    have huse := huses c List.mem_cons_self
    have hstep := loaded_handle_of_isUse huse c.home s
    rw [current, h] at hstep
    refine (ih (fun d hd => huses d (List.mem_cons_of_mem _ hd)) hstep).trans ?_
    rw [List.filterMap_cons]
    cases c.request.values? <;> rfl

/-- The store holds what the period has put into it. -/
theorem loaded_of_period {history : List Call} (p : Period history) :
    (behind {} history).loaded = some p.loaded := by
  have hopening := loaded_of_loads p.loads
  have hlater := loaded_behind_uses p.uses hopening
  have hsplit : history = (p.before ++ [p.opening]) ++ p.later := p.split.trans (by simp)
  have hbehind := congrArg (behind {}) hsplit
  rw [hbehind, behind_append, hlater, Loaded.ofHost_eq]
  unfold Period.loaded Period.layers Period.values Effective.ofSources
  rw [List.filterMap_cons]
  cases p.opening.request.values? <;> rfl

end Store

namespace Registers

def behind (r : Registers) (calls : List Store.Call) : Registers :=
  calls.foldl (fun r c => (r.handle c.home c.request).1) r

theorem behind_ofStore (s : Store) (calls : List Store.Call) :
    (ofStore s).behind calls = ofStore (s.behind calls) := by
  induction calls generalizing s with
  | nil => rfl
  | cons c calls ih =>
    have hstep := congrArg Prod.fst (handle_ofStore c.home s c.request)
    exact (congrArg (fun r => behind r calls) hstep).trans (ih (s.handle c.home c.request).1)

theorem behind_of_period {history : List Store.Call} (p : Store.Period history) :
    behind {} history = ⟨p.loaded.settings.toSettings, true, p.loaded.path⟩ := by
  refine (behind_ofStore {} history).trans ?_
  rw [ofStore, Store.loaded_of_period p]

end Registers

namespace Store

end Store

end CommandText
