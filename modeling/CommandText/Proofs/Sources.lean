import CommandText.Settings.Store
import Mathlib.Tactic.SplitIfs

/-!
# What a source says about one name

Documents, environments and tables of variables are read by going through their entries. Since a
table has one entry for each name, all that such a pass leaves behind about a name is decided by the
entry of that name: `Table.view_foldl` says so for every pass. From it follows what each source of
settings sets a switch to and which variables it holds, in terms of the source's own entries. Only
where names are compared regardless of case may several entries of an environment stand for one
name, and then the first of them counts.
-/

namespace CommandText

namespace Table

variable {α β σ : Type}

theorem lookup_eq_none_of_forall_ne {name : Text} {l : List (Text × α)}
    (h : ∀ e ∈ l, name ≠ e.1) : l.lookup name = none := by
  apply List.lookup_eq_none_iff.2
  intro e he
  simpa using h e he

/-- A part of the state that only the entry of one name can change is, behind a pass over all
entries, what this entry makes of it. -/
theorem view_foldl (step : σ → Text × α → σ) (view : σ → β) (write : β → α → β) (name : Text)
    (hname : ∀ acc value, view (step acc (name, value)) = write (view acc) value)
    (hother : ∀ acc e, name ≠ e.1 → view (step acc e) = view acc) {l : List (Text × α)}
    (hl : l.Pairwise fun a b => a.1 ≠ b.1) (acc : σ) :
    view (l.foldl step acc) = ((l.lookup name).map (write (view acc))).getD (view acc) := by
  induction l generalizing acc with
  | nil => rfl
  | cons e rest ih =>
    obtain ⟨he, hrest⟩ := List.pairwise_cons.1 hl
    rw [List.foldl_cons, ih hrest, lookup_cons]
    by_cases h : name = e.1
    · -- No later entry has the name, so what this entry writes stays.
      subst h
      rw [lookup_eq_none_of_forall_ne he, if_pos rfl]
      exact hname acc e.2
    · rw [if_neg h, hother acc e h]

theorem distinct (t : Table α) : t.entries.Pairwise fun a b => a.1 ≠ b.1 :=
  t.ordered.imp fun h => h.1

theorem view_foldl_entries (step : σ → Text × α → σ) (view : σ → β) (write : β → α → β)
    (name : Text) (hname : ∀ acc value, view (step acc (name, value)) = write (view acc) value)
    (hother : ∀ acc e, name ≠ e.1 → view (step acc e) = view acc) (t : Table α) (acc : σ) :
    view (t.entries.foldl step acc) = ((t.get? name).map (write (view acc))).getD (view acc) :=
  view_foldl step view write name hname hother t.distinct acc

theorem get?_union (s t : Table α) (name : Text) :
    (s.union t).get? name = (t.get? name).or (s.get? name) := by
  have h := view_foldl_entries (fun (u : Table α) e => u.insert e.1 e.2) (fun u => u.get? name)
    (fun _ value => some value) name (by simp [get?_insert]) (by simp +contextual [get?_insert])
    t s
  refine h.trans ?_
  cases t.get? name <;> rfl

end Table

namespace Bindings

theorem distinct_defined (b : Bindings) : b.defined.Pairwise fun x y => x.1 ≠ y.1 := by
  apply b.distinct.filterMap
  intro x y hne x' hx y' hy
  obtain ⟨v, -, rfl⟩ := Option.map_eq_some_iff.1 hx
  obtain ⟨w, -, rfl⟩ := Option.map_eq_some_iff.1 hy
  exact hne

theorem lookup_defined (b : Bindings) (name : Text) : b.defined.lookup name = b.value? name := by
  obtain ⟨l, hl⟩ := b
  have hdistinct : l.Pairwise fun x y => x.1 ≠ y.1 := hl.imp fun h => h.1
  unfold defined value? Table.get?
  dsimp only
  clear hl
  induction l with
  | nil => rfl
  | cons e rest ih =>
    obtain ⟨he, hrest⟩ := List.pairwise_cons.1 hdistinct
    obtain ⟨n, v⟩ := e
    rw [Table.lookup_cons]
    by_cases h : name = n
    · subst h
      cases v with
      | some v => simp
      | none =>
        have hnone := Table.lookup_eq_none_of_forall_ne he
        have hjoin := ih hrest
        rw [hnone] at hjoin
        simpa using hjoin
    · cases v with
      | some v => simpa [Table.lookup_cons, h] using ih hrest
      | none => simpa [h] using ih hrest

theorem view_foldl_defined {β σ : Type} (step : σ → Text × Text → σ) (view : σ → β)
    (write : β → Text → β) (name : Text)
    (hname : ∀ acc value, view (step acc (name, value)) = write (view acc) value)
    (hother : ∀ acc e, name ≠ e.1 → view (step acc e) = view acc) (b : Bindings) (acc : σ) :
    view (b.defined.foldl step acc) = ((b.value? name).map (write (view acc))).getD (view acc) := by
  rw [← b.lookup_defined]
  exact Table.view_foldl step view write name hname hother b.distinct_defined acc

end Bindings

namespace Lookup

theorem ofEnvironment_eq (env : Environment) (name : Text) :
    Lookup.ofEnvironment env false name = if name = [] then Option.none else env.value? name := by
  unfold ofEnvironment
  split_ifs with hname
  · rfl
  · have h := env.view_foldl_defined
      (fun (t : Table Text) e => if e.1 = [] then t else t.insertNew (fold false e.1) e.2)
      (fun t => t.get? name) (fun old value => some (old.getD value)) name ?_ ?_ ∅
    · refine h.trans ?_
      cases env.value? name <;> rfl
    · intro t value
      simp [hname, fold, Table.get?_insertNew]
    · intro t e hne
      split_ifs
      · rfl
      · simp [fold, Table.get?_insertNew, hne]

/-- Two names are the same, up to case if it is ignored. -/
def SameName (ignoreCase : Bool) (a b : Text) : Prop :=
  if ignoreCase then a.upper = b.upper else a = b

theorem fold_eq_fold_iff {ignoreCase : Bool} {a b : Text} :
    fold ignoreCase a = fold ignoreCase b ↔ SameName ignoreCase a b := by
  cases ignoreCase <;> rfl

/-- An entry with a name and a value that stands for a name. -/
def Matches (ignoreCase : Bool) (name : Text) (entry : Text × Option Text) : Prop :=
  entry.1 ≠ [] ∧ entry.2 ≠ Option.none ∧ SameName ignoreCase entry.1 name

def offer (ignoreCase : Bool) (folded : Text) (entry : Text × Option Text) : Option Text :=
  if entry.1 ≠ [] ∧ fold ignoreCase entry.1 = folded then entry.2 else Option.none

theorem offer_eq_some_iff {ignoreCase : Bool} {name value : Text} {entry : Text × Option Text} :
    offer ignoreCase (fold ignoreCase name) entry = some value ↔
      Matches ignoreCase name entry ∧ entry.2 = some value := by
  unfold offer Matches
  split_ifs with h
  · have hsame := fold_eq_fold_iff.1 h.2
    constructor
    · intro hvalue
      exact ⟨⟨h.1, by simp [hvalue], hsame⟩, hvalue⟩
    · exact And.right
  · constructor
    · intro hvalue
      cases hvalue
    · rintro ⟨⟨hkey, -, hsame⟩, -⟩
      exact absurd ⟨hkey, fold_eq_fold_iff.2 hsame⟩ h

theorem offer_eq_none_iff {ignoreCase : Bool} {name : Text} {entry : Text × Option Text} :
    offer ignoreCase (fold ignoreCase name) entry = Option.none ↔
      ¬Matches ignoreCase name entry := by
  rw [Option.eq_none_iff_forall_ne_some]
  constructor
  · intro h hmatches
    obtain ⟨value, hvalue⟩ := Option.ne_none_iff_exists'.1 hmatches.2.1
    exact h value (offer_eq_some_iff.2 ⟨hmatches, hvalue⟩)
  · intro h value hvalue
    exact h (offer_eq_some_iff.1 hvalue).1

theorem get?_foldl_insertNew (ignoreCase : Bool) (folded : Text) (l : List (Text × Option Text))
    (t : Table Text) :
    ((l.filterMap fun e => e.2.map fun v => (e.1, v)).foldl
      (fun t e => if e.1 = [] then t else t.insertNew (fold ignoreCase e.1) e.2) t).get? folded =
        (t.get? folded).or (l.findSome? (offer ignoreCase folded)) := by
  induction l generalizing t with
  | nil => simp
  | cons e rest ih =>
    obtain ⟨key, _ | value⟩ := e
    · simpa [offer] using ih t
    · simp only [List.filterMap_cons, Option.map_some, List.foldl_cons, ih, List.findSome?_cons]
      by_cases hkey : key = []
      · simp [offer, hkey]
      · rw [if_neg hkey, Table.get?_insertNew]
        by_cases hsame : fold ignoreCase key = folded
        · subst hsame
          cases t.get? (fold ignoreCase key) <;> simp [offer, hkey]
        · simp [offer, hsame, Ne.symm hsame]

theorem get?_snapshot (env : Environment) (ignoreCase : Bool) (folded : Text) :
    (snapshot env ignoreCase).get? folded = env.entries.findSome? (offer ignoreCase folded) := by
  have hfold := get?_foldl_insertNew ignoreCase folded env.entries ∅
  rwa [Table.get?_empty, Option.none_or] at hfold

/-- The first of the entries that matches a name has the value. -/
def FirstMatch (entries : List (Text × Option Text)) (ignoreCase : Bool) (name value : Text) :
    Prop :=
  ∃ before key behind, entries = before ++ (key, some value) :: behind ∧
    Matches ignoreCase name (key, some value) ∧ ∀ e ∈ before, ¬Matches ignoreCase name e

theorem ofEnvironment_eq_some_iff {env : Environment} {ignoreCase : Bool} {name value : Text} :
    ofEnvironment env ignoreCase name = some value ↔
      name ≠ [] ∧ FirstMatch env.entries ignoreCase name value := by
  unfold ofEnvironment FirstMatch
  by_cases hname : name = []
  · simp [hname]
  · rw [if_neg hname, get?_snapshot, List.findSome?_eq_some_iff, and_iff_right hname]
    constructor
    · rintro ⟨before, ⟨key, found⟩, behind, hentries, hoffer, hbefore⟩
      obtain ⟨hmatches, hvalue⟩ := offer_eq_some_iff.1 hoffer
      obtain rfl : found = some value := hvalue
      refine ⟨before, key, behind, hentries, hmatches, ?_⟩
      intro e he
      exact offer_eq_none_iff.1 (hbefore e he)
    · rintro ⟨before, key, behind, hentries, hmatches, hbefore⟩
      refine ⟨before, (key, some value), behind, hentries, ?_, ?_⟩
      · exact offer_eq_some_iff.2 ⟨hmatches, rfl⟩
      · intro e he
        exact offer_eq_none_iff.2 (hbefore e he)

end Lookup

namespace Switch

theorem ofName?_eq_some_iff {t : Text} {w : Switch} : ofName? t = some w ↔ t = w.name := by
  constructor
  · intro h
    have hname := List.find?_some (p := fun s : Switch => s.name == t) h
    exact (eq_of_beq hname).symm
  · rintro rfl
    cases w <;> decide

theorem ofEnvName?_eq_some_iff {t : Text} {w : Switch} :
    ofEnvName? t = some w ↔ t = w.envName := by
  constructor
  · intro h
    have hname := List.find?_some (p := fun s : Switch => s.envName == t) h
    exact (eq_of_beq hname).symm
  · rintro rfl
    cases w <;> decide

theorem name_injective {w v : Switch} (h : w.name = v.name) : w = v :=
  Option.some.inj ((ofName?_eq_some_iff.2 rfl).symm.trans (ofName?_eq_some_iff.2 h))

theorem envName_injective {w v : Switch} (h : w.envName = v.envName) : w = v :=
  Option.some.inj ((ofEnvName?_eq_some_iff.2 rfl).symm.trans (ofEnvName?_eq_some_iff.2 h))

theorem name_ne_variables (w : Switch) : w.name ≠ "variables" := by
  cases w <;> decide

end Switch

namespace Value

def field? (v : Value) (name : Text) : Option Value := v.fields?.bind fun fields => fields.get? name

def bool? : Value → Option Bool
  | .bool b => some b
  | _ => none

def text? : Value → Option Text
  | .text t => some t
  | _ => none

theorem bool?_eq_some_iff {v : Value} {b : Bool} : v.bool? = some b ↔ v = .bool b := by
  cases v <;> simp [bool?]

theorem text?_eq_some_iff {v : Value} {t : Text} : v.text? = some t ↔ v = .text t := by
  cases v <;> simp [text?]

end Value

namespace Settings

/-- What a source says about a variable: nothing, or an entry, which may be without a value. -/
def binding? (s : Settings) (name : Text) : Option (Option Text) :=
  s.bindings.bind fun b => b.get? name

theorem switch?_setSwitch (s : Settings) (b : Bool) (w v : Switch) :
    (s.setSwitch b w).switch? v = if v = w then some b else s.switch? v := by
  cases w <;> cases v <;> rfl

theorem bindings_setSwitch (s : Settings) (b : Bool) (w : Switch) :
    (s.setSwitch b w).bindings = s.bindings := by
  cases w <;> rfl

theorem variableMark_append_ne (name : Text) (w : Switch) :
    variableMark ++ name ≠ mark ++ w.envName := by
  intro h
  unfold variableMark at h
  rw [List.append_assoc] at h
  have hhead : (Text.ofString "VAR_" ++ name).head? = some 0x56 := rfl
  rw [List.append_cancel_left h] at hhead
  cases w <;> exact absurd hhead (by decide)

/-- What reading an entry can do: define a variable, set a switch, or nothing. -/
theorem readEntry_cases (acc : Settings × List Warning) (e : Text × Text) :
    (∃ name, e.1 = variableMark ++ name ∧ name ≠ [] ∧
      (readEntry acc e).1 =
        { acc.1 with bindings := some ((acc.1.bindings.getD ∅).insert name (some e.2)) }) ∨
    (∃ w, e.1 = mark ++ w.envName ∧
      (readEntry acc e).1 = ((readSwitch e.2).map fun b => acc.1.setSwitch b w).getD acc.1) ∨
    ((∀ name, e.1 = variableMark ++ name → name = []) ∧ (∀ w, e.1 ≠ mark ++ Switch.envName w) ∧
      (readEntry acc e).1 = acc.1) := by
  unfold readEntry
  cases hv : Text.after? variableMark e.1 with
  | some name =>
    have he := Text.after?_eq_some_iff.1 hv
    cases name with
    | nil =>
      refine .inr (.inr ⟨?_, ?_, rfl⟩)
      · intro name hname
        exact List.append_cancel_left (hname.symm.trans he)
      · intro w hw
        exact variableMark_append_ne [] w (he.symm.trans hw)
    | cons u name => exact .inl ⟨u :: name, he, by simp, rfl⟩
  | none =>
    have hnone : ∀ name, e.1 ≠ variableMark ++ name := by
      intro name hname
      rw [Text.after?_eq_some_iff.2 hname] at hv
      cases hv
    cases hw : (Text.after? mark e.1).bind Switch.ofEnvName? with
    | none =>
      refine .inr (.inr ⟨fun name hname => absurd hname (hnone name), ?_, rfl⟩)
      intro w hname
      rw [Text.after?_eq_some_iff.2 hname, Option.bind_some,
        Switch.ofEnvName?_eq_some_iff.2 rfl] at hw
      cases hw
    | some w =>
      obtain ⟨rest, hrest, hname⟩ := Option.bind_eq_some_iff.1 hw
      refine .inr (.inl ⟨w, ?_, ?_⟩)
      · rw [Text.after?_eq_some_iff.1 hrest, Switch.ofEnvName?_eq_some_iff.1 hname]
      · dsimp only
        cases readSwitch e.2 <;> rfl

theorem switch?_ofEnvironment (env : Environment) (w : Switch) :
    (ofEnvironment env).1.switch? w = (env.value? (mark ++ w.envName)).bind readSwitch := by
  have h := env.view_foldl_defined readEntry (fun acc => acc.1.switch? w)
    (fun old value => (readSwitch value).or old) (mark ++ w.envName) ?_ ?_ ({}, [])
  · refine h.trans ?_
    cases env.value? (mark ++ w.envName) <;> cases w <;> simp [switch?]
  · intro acc value
    rcases readEntry_cases acc (mark ++ w.envName, value) with
      ⟨name, hname, -⟩ | ⟨v, hv, he⟩ | ⟨-, hnone, -⟩
    · exact absurd hname.symm (variableMark_append_ne name w)
    · obtain rfl := Switch.envName_injective (List.append_cancel_left hv)
      rw [he]
      cases readSwitch value <;> simp [switch?_setSwitch]
    · exact absurd rfl (hnone w)
  · intro acc e hne
    rcases readEntry_cases acc e with ⟨name, -, -, he⟩ | ⟨v, hv, he⟩ | ⟨-, -, he⟩
    · rw [he]
      cases w <;> rfl
    · have hvw : w ≠ v := by
        rintro rfl
        exact hne hv.symm
      rw [he]
      cases readSwitch e.2 <;> simp [switch?_setSwitch, hvw]
    · rw [he]

theorem binding?_ofEnvironment (env : Environment) (name : Text) :
    (ofEnvironment env).1.binding? name =
      (if name = [] then none else env.value? (variableMark ++ name)).map some := by
  have h := env.view_foldl_defined readEntry (fun acc => acc.1.binding? name)
    (fun old value => if name = [] then old else some (some value)) (variableMark ++ name) ?_ ?_
    ({}, [])
  · refine h.trans ?_
    by_cases hname : name = [] <;> cases env.value? (variableMark ++ name) <;>
      simp [hname, binding?]
  · intro acc value
    rcases readEntry_cases acc (variableMark ++ name, value) with
      ⟨other, hother, hne, he⟩ | ⟨w, hw, -⟩ | ⟨hnil, -, he⟩
    · obtain rfl := List.append_cancel_left hother
      rw [he, if_neg hne]
      simp [binding?, Table.get?_insert]
    · exact absurd hw (variableMark_append_ne name w)
    · rw [he, if_pos (hnil name rfl)]
  · intro acc e hne
    rcases readEntry_cases acc e with ⟨other, hother, -, he⟩ | ⟨w, -, he⟩ | ⟨-, -, he⟩
    · have hname : name ≠ other := by
        rintro rfl
        exact hne hother.symm
      rw [he]
      cases hb : acc.1.bindings <;> simp [binding?, hb, Table.get?_insert, hname]
    · rw [he]
      cases readSwitch e.2 <;> simp [binding?, bindings_setSwitch]
    · rw [he]

theorem get?_readVariables (source : Text) (fields : Table Value) (name : Text) :
    (readVariables source fields).1.get? name =
      (if name = Table.reserved then none else (fields.get? name).bind Value.text?).map some := by
  have h := fields.view_foldl_entries (readVariable source) (fun acc => acc.1.get? name)
    (fun old value => if name = Table.reserved then old else (value.text?.map some).or old) name
    ?_ ?_ (∅, [])
  · refine h.trans ?_
    by_cases hname : name = Table.reserved <;> cases fields.get? name <;> simp [hname]
  · intro acc value
    cases value <;> simp [readVariable, Value.text?, Table.get?_define]
  · intro acc e hne
    unfold readVariable
    cases e.2 <;> simp [Table.get?_define, hne]

/-- What reading a field can do: set a switch, define variables, or nothing. -/
theorem readField_cases (source : Text) (acc : Settings × List Warning) (e : Text × Value) :
    (∃ w, e.1 = Switch.name w ∧
      (readField source acc e).1 = (e.2.bool?.map fun b => acc.1.setSwitch b w).getD acc.1) ∨
    (e.1 = "variables" ∧
      (readField source acc e).1 = (e.2.fields?.map fun fields =>
        { acc.1 with bindings := some (readVariables source fields).1 }).getD acc.1) ∨
    ((∀ w, e.1 ≠ Switch.name w) ∧ e.1 ≠ "variables" ∧ (readField source acc e).1 = acc.1) := by
  unfold readField
  cases hw : Switch.ofName? e.1 with
  | some w =>
    refine .inl ⟨w, Switch.ofName?_eq_some_iff.1 hw, ?_⟩
    dsimp only
    cases e.2 <;> rfl
  | none =>
    have hnone : ∀ w, e.1 ≠ Switch.name w := by
      intro w hname
      rw [Switch.ofName?_eq_some_iff.2 hname] at hw
      cases hw
    dsimp only
    split_ifs with hvariables
    · refine .inr (.inl ⟨hvariables, ?_⟩)
      cases e.2.fields? <;> rfl
    · exact .inr (.inr ⟨hnone, hvariables, rfl⟩)

theorem switch?_ofValue (raw : Value) (source : Text) (w : Switch) :
    (ofValue raw source).1.switch? w = (raw.field? w.name).bind Value.bool? := by
  unfold ofValue Value.field?
  cases raw.fields? with
  | none => cases w <;> rfl
  | some fields =>
    have h := fields.view_foldl_entries (readField source) (fun acc => acc.1.switch? w)
      (fun old value => value.bool?.or old) w.name ?_ ?_ ({}, [])
    · refine h.trans ?_
      rw [Option.bind_some]
      cases fields.get? w.name <;> cases w <;> simp [switch?]
    · intro acc value
      rcases readField_cases source acc (w.name, value) with
        ⟨v, hv, he⟩ | ⟨hvariables, -⟩ | ⟨hnone, -⟩
      · obtain rfl := Switch.name_injective hv
        rw [he]
        cases value.bool? <;> simp [switch?_setSwitch]
      · exact absurd hvariables w.name_ne_variables
      · exact absurd rfl (hnone w)
    · intro acc e hne
      rcases readField_cases source acc e with ⟨v, hv, he⟩ | ⟨-, he⟩ | ⟨-, -, he⟩
      · have hvw : w ≠ v := by
          rintro rfl
          exact hne hv.symm
        rw [he]
        cases e.2.bool? <;> simp [switch?_setSwitch, hvw]
      · rw [he]
        cases e.2.fields? <;> cases w <;> rfl
      · rw [he]

theorem bindings_ofValue (raw : Value) (source : Text) :
    (ofValue raw source).1.bindings =
      ((raw.field? "variables").bind Value.fields?).map fun fields =>
        (readVariables source fields).1 := by
  unfold ofValue Value.field?
  cases raw.fields? with
  | none => rfl
  | some fields =>
    have h := fields.view_foldl_entries (readField source) (fun acc => acc.1.bindings)
      (fun old value => (value.fields?.map fun fields => (readVariables source fields).1).or old)
      "variables" ?_ ?_ ({}, [])
    · refine h.trans ?_
      rw [Option.bind_some]
      cases fields.get? "variables" <;> simp
    · intro acc value
      rcases readField_cases source acc ("variables", value) with
        ⟨w, hw, -⟩ | ⟨-, he⟩ | ⟨-, hnone, -⟩
      · exact absurd hw.symm w.name_ne_variables
      · rw [he]
        cases value.fields? <;> rfl
      · exact absurd rfl hnone
    · intro acc e hne
      rcases readField_cases source acc e with ⟨w, -, he⟩ | ⟨hvariables, -⟩ | ⟨-, -, he⟩
      · rw [he]
        cases e.2.bool? <;> simp [bindings_setSwitch]
      · exact absurd hvariables.symm hne
      · rw [he]

theorem binding?_ofValue (raw : Value) (source name : Text) :
    (ofValue raw source).1.binding? name =
      (if name = Table.reserved then none
        else ((raw.field? "variables").bind fun v => v.field? name).bind Value.text?).map some := by
  unfold binding?
  rw [bindings_ofValue]
  cases raw.field? "variables" with
  | none => simp
  | some v => cases hv : v.fields? <;> simp [Value.field?, hv, get?_readVariables]

end Settings

namespace Found

/-- The file that a search has found a value in. -/
def path? : Found → Option Text
  | .value path _ => some path
  | _ => none

/-- The settings in that file, less what cannot be used of them. -/
def file : Found → Settings
  | .value path v => (Settings.ofValue v path).1
  | _ => {}

end Found

theorem Loaded.ofFound_eq (found : Found) (env : Environment) :
    (ofFound found env).1 =
      ⟨(Effective.defaults.update found.file).update (Settings.ofEnvironment env).1,
        found.path?⟩ := by
  cases found <;> rfl

theorem Effective.get?_update (e : Effective) (s : Settings) (name : Text) :
    (e.update s).bindings.get? name = (s.binding? name).or (e.bindings.get? name) := by
  unfold update Settings.binding?
  cases s.bindings with
  | none => rfl
  | some b => exact e.bindings.get?_union b name

end CommandText
