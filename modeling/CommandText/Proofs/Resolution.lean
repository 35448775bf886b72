import CommandText.Proofs.AllOrNothing
import CommandText.Proofs.Definitions
import Mathlib.Data.List.Forall2

/-!
# The order in which variables are resolved

An invocation looks a variable up in four places: the definitions among its arguments, the variables
that the environment sets for the program, the variables of the settings file, and the environment
itself, unless that is ruled out. `Invocation.places` lists what counts as an entry in each place,
said about the arguments as they stand, the value that was found in a file, and the entries of the
environment. The lookup of an invocation gives a variable its entry in the first place that has one.
Only in the last place does it matter whether names are compared regardless of case.
-/

namespace CommandText

/-- The result is the value that the first of the sources with a value has, and none if no source
has one. -/
def FirstOf {α : Type} : List (α → Prop) → Option α → Prop
  | [], result => result = none
  | source :: rest, result =>
    (∃ v, source v ∧ result = some v) ∨ (∀ v, ¬source v) ∧ FirstOf rest result

/-- If each source has at most one value, the first value is the result. -/
theorem firstOf_iff {α : Type} {sources : List (α → Prop)} {values : List (Option α)}
    (h : List.Forall₂ (fun source value => ∀ v, source v ↔ value = some v) sources values)
    (result : Option α) : FirstOf sources result ↔ result = values.findSome? id := by
  induction h with
  | nil => exact Iff.rfl
  | @cons source value sources values hsource _ ih =>
    unfold FirstOf
    rw [ih]
    simp only [hsource]
    cases value <;> simp

namespace Environment

/-- The environment has an entry with a value. -/
def Has (env : Environment) (name value : Text) : Prop := env.get? name = some (some value)

/-- The environment turns the use of its own variables on or off. -/
def SetsUseEnv (env : Environment) (b : Bool) : Prop :=
  ∃ word, Has env "CMDTOK_USE_ENV" word ∧
    (b = true ∧ (word = "1" ∨ word = "true") ∨ b = false ∧ (word = "0" ∨ word = "false" ∨ word = []))

theorem has_iff {env : Environment} {name value : Text} :
    Has env name value ↔ env.value? name = some value := by
  unfold Has Bindings.value?
  exact Option.join_eq_some_iff.symm

theorem readSwitch_eq_some_iff {word : Text} {b : Bool} :
    Settings.readSwitch word = some b ↔
      b = true ∧ (word = "1" ∨ word = "true") ∨
        b = false ∧ (word = "0" ∨ word = "false" ∨ word = []) := by
  unfold Settings.readSwitch
  split_ifs with hon hoff
  · have hnot : ¬(word = "0" ∨ word = "false" ∨ word = []) := by
      rcases hon with rfl | rfl <;> decide
    simp [hon, hnot, eq_comm]
  · simp [hon, hoff, eq_comm]
  · simp [hon, hoff]

theorem setsUseEnv_iff {env : Environment} {b : Bool} :
    SetsUseEnv env b ↔ (Settings.ofEnvironment env).1.useEnv = some b := by
  have hswitch : (Settings.ofEnvironment env).1.useEnv =
      (env.value? "CMDTOK_USE_ENV").bind Settings.readSwitch :=
    Settings.switch?_ofEnvironment env .useEnv
  rw [hswitch, Option.bind_eq_some_iff]
  unfold SetsUseEnv
  simp only [has_iff, readSwitch_eq_some_iff]

/-- The environment has a variable: an entry of the very name, or the first entry that matches where
names are compared regardless of case. -/
def Inherits (env : Environment) (name value : Text) : Bool → Prop
  | false => Has env name value
  | true => Lookup.FirstMatch env.entries true name value

theorem inherits_iff {env : Environment} {ignoreCase : Bool} {name value : Text} :
    name ≠ [] ∧ Inherits env name value ignoreCase ↔
      Lookup.ofEnvironment env ignoreCase name = some value := by
  cases ignoreCase with
  | false =>
    rw [Lookup.ofEnvironment_eq, Inherits, has_iff]
    split_ifs with hname <;> simp [hname]
  | true => exact Lookup.ofEnvironment_eq_some_iff.symm

end Environment

namespace Found

/-- The value that was found is an object with an object of variables, in which a text has the
name. -/
def Declares (found : Found) (name value : Text) : Prop :=
  ∃ path raw declared, found = .value path raw ∧ raw.field? "variables" = some declared ∧
    declared.field? name = some (.text value)

/-- The value that was found turns the use of environment variables on or off. -/
def SetsUseEnv (found : Found) (b : Bool) : Prop :=
  ∃ path raw, found = .value path raw ∧ raw.field? "useEnv" = some (.bool b)

theorem setsUseEnv_iff {found : Found} {b : Bool} :
    found.SetsUseEnv b ↔ found.file.useEnv = some b := by
  cases found with
  | nothing => simp [SetsUseEnv, file]
  | unreadable => simp [SetsUseEnv, file]
  | value path raw =>
    have hswitch : (Settings.ofValue raw path).1.useEnv =
        (raw.field? "useEnv").bind Value.bool? := Settings.switch?_ofValue raw path .useEnv
    change _ ↔ (Settings.ofValue raw path).1.useEnv = some b
    rw [hswitch, Option.bind_eq_some_iff]
    simp only [Value.bool?_eq_some_iff]
    constructor
    · rintro ⟨_, _, ⟨⟩, hfield⟩
      exact ⟨.bool b, hfield, rfl⟩
    · rintro ⟨_, hfield, rfl⟩
      exact ⟨path, raw, rfl, hfield⟩

theorem exists_binding?_eq (found : Found) (name : Text) :
    ∃ value : Option Text, found.file.binding? name = value.map some ∧
      ∀ v, name ≠ Table.reserved ∧ found.Declares name v ↔ value = some v := by
  cases found with
  | nothing => exact ⟨none, rfl, by simp [Declares]⟩
  | unreadable => exact ⟨none, rfl, by simp [Declares]⟩
  | value path raw =>
    refine ⟨_, Settings.binding?_ofValue raw path name, ?_⟩
    intro v
    by_cases hname : name = Table.reserved
    · simp [hname]
    · rw [if_neg hname, Option.bind_eq_some_iff]
      simp only [Value.text?_eq_some_iff, Option.bind_eq_some_iff]
      constructor
      · rintro ⟨-, _, _, declared, ⟨⟩, hdeclared, hvalue⟩
        exact ⟨.text v, ⟨declared, hdeclared, hvalue⟩, rfl⟩
      · rintro ⟨_, ⟨declared, hdeclared, hvalue⟩, rfl⟩
        exact ⟨hname, path, raw, declared, rfl, hdeclared, hvalue⟩

end Found

namespace Invocation

/-- The use of the environment is on unless the environment, or else the file, turns it off. -/
def UsesEnvironment (found : Found) (env : Environment) : Prop :=
  FirstOf [Environment.SetsUseEnv env, found.SetsUseEnv, fun b => b = true] (some true)

/-- The places where a variable is looked up, in order. -/
def places (argv : List Text) (found : Found) (env : Environment) (ignoreCase : Bool)
    (name : Text) : List (Text → Prop) :=
  [
    fun value => name ≠ Table.reserved ∧ Arguments.LastDefinition argv name value,
    fun value => name ≠ [] ∧ Environment.Has env ("CMDTOK_VAR_" ++ name) value,
    fun value => name ≠ Table.reserved ∧ found.Declares name value,
    fun value => Arguments.noEnv ∉ Arguments.beforeSeparator argv ∧ UsesEnvironment found env ∧
      name ≠ [] ∧ Environment.Inherits env name value ignoreCase
  ]

theorem usesEnvironment_iff {found : Found} {env : Environment} :
    UsesEnvironment found env ↔ (Loaded.ofFound found env).1.settings.useEnv = true := by
  have h := @firstOf_iff _ [Environment.SetsUseEnv env, found.SetsUseEnv, fun b => b = true]
    [(Settings.ofEnvironment env).1.useEnv, found.file.useEnv, some true]
    (.cons (fun _ => Environment.setsUseEnv_iff) (.cons (fun _ => Found.setsUseEnv_iff)
      (.cons (by simp [eq_comm]) .nil))) (some true)
  refine h.trans ?_
  rw [Loaded.ofFound_eq]
  simp only [Effective.update, Effective.defaults]
  cases (Settings.ofEnvironment env).1.useEnv <;> cases found.file.useEnv <;> simp [eq_comm]

theorem exists_value?_eq (found : Found) (env : Environment) (name : Text) :
    ∃ declared : Option Text,
      (∀ v, name ≠ Table.reserved ∧ found.Declares name v ↔ declared = some v) ∧
      (Loaded.ofFound found env).1.settings.bindings.value? name =
        (if name = [] then none else env.value? (Settings.variableMark ++ name)).or declared := by
  obtain ⟨declared, hbinding, hdeclared⟩ := found.exists_binding?_eq name
  refine ⟨declared, hdeclared, ?_⟩
  have hget : (Loaded.ofFound found env).1.settings.bindings.get? name =
      ((if name = [] then none else env.value? (Settings.variableMark ++ name)).map some).or
        ((declared.map some).or none) := by
    rw [Loaded.ofFound_eq, Effective.get?_update, Effective.get?_update, hbinding,
      Settings.binding?_ofEnvironment]
    rfl
  rw [Bindings.value?, hget]
  cases (if name = [] then none else env.value? (Settings.variableMark ++ name)) <;>
    cases declared <;> rfl

/-- The lookup is a search through the entries of the four places. -/
theorem exists_lookup_eq {argv : List Text} {a : Arguments} (hread : Arguments.read argv = .ok a)
    (found : Found) (env : Environment) (ignoreCase : Bool) (name : Text) :
    ∃ values, List.Forall₂ (fun source value => ∀ v, source v ↔ value = some v)
        (places argv found env ignoreCase name) values ∧
      lookup a (Loaded.ofFound found env).1.settings env ignoreCase name =
        values.findSome? id := by
  obtain ⟨declared, hdeclared, hvalue⟩ := exists_value?_eq found env name
  refine ⟨[a.defines.get? name,
    if name = [] then none else env.value? (Settings.variableMark ++ name),
    declared,
    if a.useEnv && (Loaded.ofFound found env).1.settings.useEnv then
      Lookup.ofEnvironment env ignoreCase name
    else none], ?_, ?_⟩
  · refine .cons ?_ (.cons ?_ (.cons hdeclared (.cons ?_ .nil)))
    · intro v
      exact (Arguments.get?_defines_iff hread).symm
    · intro v
      have hmark : Settings.variableMark = Text.ofString "CMDTOK_VAR_" := rfl
      dsimp only
      rw [Environment.has_iff, hmark]
      split_ifs with hname <;> simp [hname]
    · intro v
      dsimp only
      rw [Environment.inherits_iff, ← Arguments.useEnv_iff hread, usesEnvironment_iff]
      cases a.useEnv <;> cases (Loaded.ofFound found env).1.settings.useEnv <;> simp
  · unfold lookup Lookup.chain Lookup.ofTable Lookup.ofRecord
    simp only [List.findSome?_cons, hvalue]
    cases a.defines.get? name <;>
      cases (if name = [] then none else env.value? (Settings.variableMark ++ name)) <;>
      cases declared <;> cases a.useEnv && (Loaded.ofFound found env).1.settings.useEnv <;> rfl

theorem lookup_nil_eq_some_iff {argv : List Text} {a : Arguments}
    (hread : Arguments.read argv = .ok a) (found : Found) (env : Environment) (ignoreCase : Bool)
    (value : Text) :
    lookup a (Loaded.ofFound found env).1.settings env ignoreCase [] = some value ↔
      found.Declares [] value := by
  obtain ⟨declared, hdeclared, hvalue⟩ := exists_value?_eq found env []
  have hlookup : lookup a (Loaded.ofFound found env).1.settings env ignoreCase [] = declared := by
    unfold lookup Lookup.chain Lookup.ofTable Lookup.ofRecord
    simp only [List.findSome?_cons, hvalue, Arguments.get?_defines_nil hread]
    cases declared <;> cases a.useEnv && (Loaded.ofFound found env).1.settings.useEnv <;> rfl
  have hname : [] ≠ Table.reserved := by decide
  rw [hlookup, ← hdeclared value]
  exact and_iff_right hname

/-- An invocation that asks for tokens resolves each variable in the first place that has it,
whatever a search finds and whatever the environment is, and the empty name only by a file. With
this lookup its text is split. -/
theorem run_resolves_in_order {argv : List Text} {a : Arguments}
    (hread : Arguments.read argv = .ok a) (hhelp : a.help = false) (hwords : a.words ≠ []) :
    (∀ found env ignoreCase name, FirstOf (places argv found env ignoreCase name)
      (lookup a (Loaded.ofFound found env).1.settings env ignoreCase name)) ∧
    (∀ found env ignoreCase value,
      lookup a (Loaded.ofFound found env).1.settings env ignoreCase [] = some value ↔
        found.Declares [] value) ∧
    ∀ (h : Host) (s : Store),
      ((run argv h s).1.code, (run argv h s).1.out) =
        answer a.json
          (tokenize (lookup a (Loaded.ofFound h.found h.env).1.settings h.env h.ignoreCase)
            (a.preserveQuotes || (Loaded.ofFound h.found h.env).1.settings.preserveQuotes)
            (Text.join [Text.space] a.words)) := by
  refine ⟨?_, ?_, ?_⟩
  · intro found env ignoreCase name
    obtain ⟨values, hvalues, hlookup⟩ := exists_lookup_eq hread found env ignoreCase name
    exact (firstOf_iff hvalues _).2 hlookup
  · intro found env ignoreCase value
    exact lookup_nil_eq_some_iff hread found env ignoreCase value
  · intro h s
    rw [reply_run, hread]
    unfold reply
    dsimp only
    rw [hhelp, if_neg Bool.false_ne_true, if_neg hwords]
    rfl

def redefinition : List Text := ["-D", "A=1", "--define", "A=2=3", "%A%", "%%"]

def declaration : Found :=
  .value "f" (.object [("variables", .object [("A", .text "4"), ([], .text "5")])])

/-- Of two definitions the second one counts, cut at its first equals sign and whatever a file says.
The file gives the empty name a value. -/
theorem run_resolves_redefinition :
    ∃ a, Arguments.read redefinition = .ok a ∧
      FirstOf (places redefinition declaration ∅ false "A") (some (Text.ofString "2=3")) ∧
      lookup a (Loaded.ofFound declaration ∅).1.settings ∅ false [] =
        some (Text.ofString "5") := by
  have hfields : (Arguments.read redefinition).toOption.map (fun a =>
      (a.help, a.words, lookup a (Loaded.ofFound declaration ∅).1.settings ∅ false "A")) =
        some (false, (["%A%", "%%"] : List Text), some (Text.ofString "2=3")) := by
    decide +kernel
  cases hread : Arguments.read redefinition with
  | error e =>
    rw [hread] at hfields
    cases hfields
  | ok a =>
    rw [hread] at hfields
    obtain ⟨hhelp, hrest⟩ := Prod.mk.inj (Option.some.inj hfields)
    obtain ⟨hwords, hvalue⟩ := Prod.mk.inj hrest
    have hsome : a.words ≠ [] := by simp [hwords]
    obtain ⟨horder, hnil, -⟩ := run_resolves_in_order hread hhelp hsome
    refine ⟨a, rfl, ?_, ?_⟩
    · rw [← hvalue]
      exact horder declaration ∅ false "A"
    · apply (hnil declaration ∅ false "5").2
      exact ⟨"f", _, .object [("A", .text "4"), ([], .text "5")], rfl, rfl, rfl⟩

end Invocation

end CommandText
