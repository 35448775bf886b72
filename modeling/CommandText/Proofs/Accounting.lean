import CommandText.Proofs.Sources

/-!
# Accounting for the entries of a document

A document is read entry by entry, and its object of variables likewise. What a step does to the
warnings depends on its own entry alone: one that can be used adds nothing, any other adds one
warning that names it. The warnings of a whole document are therefore those about its unusable
entries, in order. An entry that can be used is kept, with one exception: a text under the reserved
name is neither kept nor reported.
-/

namespace CommandText

namespace Table

theorem lookup_eq_some_iff_mem {α : Type} {name : Text} {value : α} {l : List (Text × α)}
    (hl : l.Pairwise fun a b => a.1 ≠ b.1) : l.lookup name = some value ↔ (name, value) ∈ l := by
  induction l with
  | nil => simp
  | cons e rest ih =>
    obtain ⟨he, hrest⟩ := List.pairwise_cons.1 hl
    rw [lookup_cons, List.mem_cons]
    by_cases h : name = e.1
    · -- The first entry has the name, so no later one has.
      have hnot : (name, value) ∉ rest := fun hmem => he (name, value) hmem h.symm
      subst h
      rw [if_pos rfl, Option.some_inj, or_iff_left hnot, Prod.ext_iff]
      simp [eq_comm]
    · have hne : (name, value) ≠ e := fun heq => h (congrArg Prod.fst heq)
      rw [if_neg h, ih hrest]
      simp [hne]

theorem get?_eq_some_iff_mem {α : Type} {t : Table α} {name : Text} {value : α} :
    t.get? name = some value ↔ (name, value) ∈ t.entries :=
  lookup_eq_some_iff_mem t.distinct

end Table

namespace Settings

inductive Subject where
  | option (name : Text)
  | binding (name : Text)
  deriving DecidableEq

def Subject.name : Subject → Text
  | option name => name
  | binding name => name

/-- An entry of a document or of its object of variables. -/
structure Entry where
  subject : Subject
  value : Value

namespace Entry

def ofVariables (fields : Table Value) : List Entry :=
  fields.entries.map fun e => ⟨.binding e.1, e.2⟩

/-- The entries that a field brings: itself and the variables in it. -/
def ofField (field : Text × Value) : List Entry :=
  ⟨.option field.1, field.2⟩ ::
    if field.1 = "variables" then (field.2.fields?.map ofVariables).getD [] else []

/-- All entries of a document, in listing order. -/
def all (document : Table Value) : List Entry := document.entries.flatMap ofField

/-- A switch needs a truth value, the variables need an object and a variable needs a text. There
are no other options. -/
def isUsable (e : Entry) : Bool :=
  match e.subject with
  | .option name =>
    match Switch.ofName? name with
    | some _ => e.value.bool?.isSome
    | none => name == "variables" && e.value.fields?.isSome
  | .binding _ => e.value.text?.isSome

/-- The settings hold what the entry says. Of an object of variables only its presence is held, its
variables are entries of their own. -/
def KeptIn (s : Settings) (e : Entry) : Prop :=
  match e.subject with
  | .option name =>
    match Switch.ofName? name with
    | some w => ∃ b, e.value = .bool b ∧ s.switch? w = some b
    | none => name = "variables" ∧ e.value.fields?.isSome ∧ s.bindings.isSome
  | .binding name => ∃ t, e.value = .text t ∧ s.binding? name = some (some t)

def complaint (source : Text) (e : Entry) : Warning :=
  match e.subject with
  | .option name =>
    match Switch.ofName? name with
    | some _ => .notABoolean name source
    | none =>
      if name = "variables" then .variablesNotAnObject source else .unknownOption name source
  | .binding name => .variableNotAText name source

/-- One warning for each entry that cannot be used, in order. -/
def complaints (source : Text) (entries : List Entry) : List Warning :=
  (entries.filter fun e => !e.isUsable).map (complaint source)

end Entry

end Settings

namespace Warning

/-- What a warning is about, if it is about an entry of a document. -/
def subject? : Warning → Option Settings.Subject
  | notABoolean name _ => some (.option name)
  | variablesNotAnObject _ => some (.option "variables")
  | unknownOption name _ => some (.option name)
  | variableNotAText name _ => some (.binding name)
  | notAnObject _ => none
  | notASwitch _ _ => none
  | unreadableFile => none

theorem quoted_name_infix_message {w : Warning} {s : Settings.Subject}
    (h : w.subject? = some s) : Text.quote :: s.name ++ [Text.quote] <:+: w.message := by
  have hfrom : Text.ofString "\" from " = Text.quote :: Text.ofString " from " := by decide
  cases w with
  | notABoolean name source =>
    cases h
    have hopen : Text.ofString "[cmdtok] Ignoring \"" =
        Text.ofString "[cmdtok] Ignoring " ++ [Text.quote] := by decide
    refine ⟨Text.ofString "[cmdtok] Ignoring ",
      Text.ofString " from " ++ source ++ Text.ofString ": expected a boolean", ?_⟩
    simp [message, Settings.Subject.name, hopen, hfrom]
  | variablesNotAnObject source =>
    cases h
    have hopen : Text.ofString "[cmdtok] Ignoring \"variables\" from " =
        Text.ofString "[cmdtok] Ignoring " ++
          (Text.quote :: Text.ofString "variables" ++ [Text.quote]) ++ Text.ofString " from " := by
      decide
    refine ⟨Text.ofString "[cmdtok] Ignoring ",
      Text.ofString " from " ++ source ++ Text.ofString ": expected an object", ?_⟩
    simp [message, Settings.Subject.name, hopen]
  | unknownOption name source =>
    cases h
    have hopen : Text.ofString "[cmdtok] Ignoring unknown option \"" =
        Text.ofString "[cmdtok] Ignoring unknown option " ++ [Text.quote] := by decide
    refine ⟨Text.ofString "[cmdtok] Ignoring unknown option ",
      Text.ofString " from " ++ source, ?_⟩
    simp [message, Settings.Subject.name, hopen, hfrom]
  | variableNotAText name source =>
    cases h
    have hopen : Text.ofString "[cmdtok] Ignoring variable \"" =
        Text.ofString "[cmdtok] Ignoring variable " ++ [Text.quote] := by decide
    refine ⟨Text.ofString "[cmdtok] Ignoring variable ",
      Text.ofString " from " ++ source ++ Text.ofString ": expected a string", ?_⟩
    simp [message, Settings.Subject.name, hopen, hfrom]
  | notAnObject source => cases h
  | notASwitch name value => cases h
  | unreadableFile => cases h

end Warning

namespace Settings

namespace Entry

/-- The entry is kept, or there is a warning about it. -/
def Accounted (found : Settings × List Warning) (e : Entry) : Prop :=
  e.KeptIn found.1 ∨ ∃ w ∈ found.2, w.subject? = some e.subject

theorem subject?_complaint (source : Text) (e : Entry) :
    (e.complaint source).subject? = some e.subject := by
  obtain ⟨name | name, value⟩ := e
  · simp only [complaint]
    cases Switch.ofName? name with
    | some w => rfl
    | none =>
      dsimp only
      split_ifs with hname
      · rw [hname]
        rfl
      · rfl
  · rfl

theorem complaints_flatMap {α : Type} (source : Text) (f : α → List Entry) (l : List α) :
    complaints source (l.flatMap f) = l.flatMap fun x => complaints source (f x) := by
  unfold complaints
  rw [List.filter_flatMap, List.map_flatMap]

@[simp]
theorem complaints_nil (source : Text) : complaints source [] = [] := rfl

theorem complaints_cons (source : Text) (e : Entry) (rest : List Entry) :
    complaints source (e :: rest) =
      (if e.isUsable then [] else [e.complaint source]) ++ complaints source rest := by
  cases h : e.isUsable <;> simp [complaints, h]

end Entry

/-- A pass whose steps add warnings by their own entries adds the warnings of all entries. -/
theorem warnings_foldl {α σ : Type} {step : σ × List Warning → α → σ × List Warning}
    {added : α → List Warning} (hstep : ∀ acc e, (step acc e).2 = acc.2 ++ added e) (l : List α)
    (start : σ) : (l.foldl step (start, [])).2 = l.flatMap added := by
  rw [List.flatMap_eq_foldl]
  exact (List.foldl_hom Prod.snd fun acc e => (hstep acc e).symm).symm

theorem warnings_readVariable (source : Text) (acc : Bindings × List Warning)
    (field : Text × Value) :
    (readVariable source acc field).2 =
      acc.2 ++ Entry.complaints source [⟨.binding field.1, field.2⟩] := by
  unfold readVariable
  cases field.2 <;> simp [Entry.complaints, Entry.isUsable, Entry.complaint, Value.text?]

theorem warnings_readVariables (source : Text) (fields : Table Value) :
    (readVariables source fields).2 = Entry.complaints source (Entry.ofVariables fields) := by
  unfold readVariables Entry.ofVariables
  rw [warnings_foldl (warnings_readVariable source), List.map_eq_flatMap,
    Entry.complaints_flatMap]

theorem warnings_readField (source : Text) (acc : Settings × List Warning)
    (field : Text × Value) :
    (readField source acc field).2 = acc.2 ++ Entry.complaints source (Entry.ofField field) := by
  obtain ⟨name, value⟩ := field
  unfold readField Entry.ofField
  rw [Entry.complaints_cons]
  cases hw : Switch.ofName? name with
  | some w =>
    have hname : name ≠ "variables" := by
      rw [Switch.ofName?_eq_some_iff.1 hw]
      exact w.name_ne_variables
    simp only [if_neg hname, Entry.isUsable, Entry.complaint, hw, Entry.complaints_nil]
    cases value <;> simp [Value.bool?]
  | none =>
    by_cases hname : name = "variables"
    · -- Of an object of variables, the warnings are those about the variables in it.
      subst hname
      cases hv : value.fields? with
      | none => simp [Entry.isUsable, Entry.complaint, hw, hv]
      | some inner => simp [Entry.isUsable, hw, hv, warnings_readVariables]
    · simp [Entry.isUsable, Entry.complaint, hw, hname]

theorem warnings_ofValue (fields : List (Text × Value)) (source : Text) :
    (ofValue (.object fields) source).2 =
      Entry.complaints source (Entry.all (Table.ofList fields)) := by
  unfold Entry.all
  rw [Entry.complaints_flatMap]
  exact warnings_foldl (warnings_readField source) _ {}

namespace Entry

theorem mem_ofVariables {fields : Table Value} {e : Entry} :
    e ∈ ofVariables fields ↔
      ∃ name, e.subject = .binding name ∧ fields.get? name = some e.value := by
  unfold ofVariables
  constructor
  · intro h
    obtain ⟨⟨name, value⟩, hmem, rfl⟩ := List.mem_map.1 h
    exact ⟨name, rfl, Table.get?_eq_some_iff_mem.2 hmem⟩
  · rintro ⟨name, hname, hvalue⟩
    refine List.mem_map.2 ⟨(name, e.value), Table.get?_eq_some_iff_mem.1 hvalue, ?_⟩
    rw [← hname]

theorem mem_ofField {field : Text × Value} {e : Entry} :
    e ∈ ofField field ↔ e = ⟨.option field.1, field.2⟩ ∨
      field.1 = "variables" ∧ ∃ inner, field.2.fields? = some inner ∧ e ∈ ofVariables inner := by
  unfold ofField
  rw [List.mem_cons]
  split_ifs with hname
  · cases field.2.fields? <;> simp [hname]
  · simp [hname]

theorem mem_all {document : Table Value} {e : Entry} :
    e ∈ all document ↔
      (∃ name, e.subject = .option name ∧ document.get? name = some e.value) ∨
      ∃ name v, e.subject = .binding name ∧ document.get? "variables" = some v ∧
        v.field? name = some e.value := by
  unfold all
  rw [List.mem_flatMap]
  constructor
  · rintro ⟨⟨key, v⟩, hfield, he⟩
    have hget := Table.get?_eq_some_iff_mem.2 hfield
    rcases mem_ofField.1 he with rfl | ⟨rfl, inner, hinner, he⟩
    · exact .inl ⟨key, rfl, hget⟩
    · obtain ⟨name, hname, hvalue⟩ := mem_ofVariables.1 he
      refine .inr ⟨name, v, hname, hget, ?_⟩
      unfold Value.field?
      rw [hinner]
      exact hvalue
  · rintro (⟨name, hname, hget⟩ | ⟨name, v, hname, hget, hvalue⟩)
    · refine ⟨(name, e.value), Table.get?_eq_some_iff_mem.1 hget, mem_ofField.2 (.inl ?_)⟩
      rw [← hname]
    · obtain ⟨inner, hinner, hvalue⟩ := Option.bind_eq_some_iff.1 hvalue
      exact ⟨("variables", v), Table.get?_eq_some_iff_mem.1 hget,
        mem_ofField.2 (.inr ⟨rfl, inner, hinner, mem_ofVariables.2 ⟨name, hname, hvalue⟩⟩)⟩

theorem distinct_ofVariables (fields : Table Value) :
    (ofVariables fields).Pairwise fun a b => a.subject ≠ b.subject := by
  apply List.pairwise_map.2
  apply fields.distinct.imp
  intro a b hne heq
  exact hne (Subject.binding.inj heq)

theorem distinct_ofField (field : Text × Value) :
    (ofField field).Pairwise fun a b => a.subject ≠ b.subject := by
  unfold ofField
  split_ifs with hname
  · cases field.2.fields? with
    | none => exact List.pairwise_singleton _ _
    | some inner =>
      refine List.pairwise_cons.2 ⟨?_, distinct_ofVariables inner⟩
      intro e he heq
      obtain ⟨name, hname, -⟩ := mem_ofVariables.1 he
      cases heq.trans hname
  · exact List.pairwise_singleton _ _

theorem distinct_all (document : Table Value) :
    (all document).Pairwise fun a b => a.subject ≠ b.subject := by
  refine List.pairwise_flatMap.2 ⟨fun field _ => distinct_ofField field, ?_⟩
  apply document.distinct.imp
  intro a b hne x hx y hy heq
  rcases mem_ofField.1 hx with rfl | ⟨ha, inner, -, hx⟩ <;>
    rcases mem_ofField.1 hy with rfl | ⟨hb, inner', -, hy⟩
  · exact hne (Subject.option.inj heq)
  · obtain ⟨name, hname, -⟩ := mem_ofVariables.1 hy
    cases heq.trans hname
  · obtain ⟨name, hname, -⟩ := mem_ofVariables.1 hx
    cases hname.symm.trans heq
  · exact hne (ha.trans hb.symm)

theorem filter_subject {entries : List Entry} {e : Entry}
    (hdistinct : entries.Pairwise fun a b => a.subject ≠ b.subject) (he : e ∈ entries) :
    (entries.filter fun d => d.subject = e.subject) = [e] := by
  induction entries with
  | nil => cases he
  | cons d rest ih =>
    obtain ⟨hd, hrest⟩ := List.pairwise_cons.1 hdistinct
    rcases List.mem_cons.1 he with rfl | he
    · have hnone : (rest.filter fun d => d.subject = e.subject) = [] := by
        apply List.filter_eq_nil_iff.2
        intro d hmem
        simpa using (hd d hmem).symm
      simp [hnone]
    · simp [hd e he, ih hrest he]

/-- Among the warnings, those about an entry are its own. -/
theorem filter_complaints {entries : List Entry} {e : Entry}
    (hdistinct : entries.Pairwise fun a b => a.subject ≠ b.subject) (he : e ∈ entries)
    (source : Text) :
    ((complaints source entries).filter fun w => w.subject? = some e.subject) =
      if e.isUsable then [] else [e.complaint source] := by
  unfold complaints
  rw [List.filter_map]
  have habout : ((fun w : Warning => decide (w.subject? = some e.subject)) ∘ complaint source) =
      fun d => decide (d.subject = e.subject) := by
    funext d
    simp [subject?_complaint]
  have hswap : ((entries.filter fun d => !d.isUsable).filter fun d => d.subject = e.subject) =
      (entries.filter fun d => d.subject = e.subject).filter fun d => !d.isUsable := by
    simp only [List.filter_filter, Bool.and_comm]
  rw [habout, hswap, filter_subject hdistinct he]
  cases h : e.isUsable <;> simp [h]

theorem mem_complaints_iff {entries : List Entry} {e : Entry}
    (hdistinct : entries.Pairwise fun a b => a.subject ≠ b.subject) (he : e ∈ entries)
    (source : Text) :
    (∃ w ∈ complaints source entries, w.subject? = some e.subject) ↔ ¬e.isUsable := by
  constructor
  · rintro ⟨w, hw, hsubject⟩ husable
    have hfilter := filter_complaints hdistinct he source
    rw [if_pos husable] at hfilter
    exact List.filter_eq_nil_iff.1 hfilter w hw (by simpa using hsubject)
  · intro hnot
    have hmem : e ∈ entries.filter fun d => !d.isUsable :=
      List.mem_filter.2 ⟨he, by simpa using hnot⟩
    exact ⟨e.complaint source, List.mem_map_of_mem hmem, e.subject?_complaint source⟩

section

variable {fields : List (Text × Value)} {name : Text} {value : Value}

theorem option_keptIn_iff (hget : (Table.ofList fields).get? name = some value) (source : Text) :
    (⟨.option name, value⟩ : Entry).KeptIn (ofValue (.object fields) source).1 ↔
      (⟨.option name, value⟩ : Entry).isUsable := by
  have hfield : (Value.object fields).field? name = some value := hget
  simp only [KeptIn, isUsable]
  cases hw : Switch.ofName? name with
  | some w =>
    obtain rfl := Switch.ofName?_eq_some_iff.1 hw
    simp only [switch?_ofValue, hfield]
    cases value <;> simp [Value.bool?]
  | none =>
    by_cases hname : name = "variables"
    · subst hname
      simp [bindings_ofValue, hfield]
    · simp [hname]

theorem binding_keptIn_iff {v : Value} (hget : (Table.ofList fields).get? "variables" = some v)
    (hvalue : v.field? name = some value) (source : Text) :
    (⟨.binding name, value⟩ : Entry).KeptIn (ofValue (.object fields) source).1 ↔
      (⟨.binding name, value⟩ : Entry).isUsable ∧ name ≠ Table.reserved := by
  have hfield : (Value.object fields).field? "variables" = some v := hget
  simp only [KeptIn, isUsable, binding?_ofValue, hfield, Option.bind_some, hvalue]
  by_cases hname : name = Table.reserved
  · simp [hname]
  · cases value <;> simp [hname, Value.text?]

end

theorem keptIn_iff {fields : List (Text × Value)} {e : Entry}
    (he : e ∈ all (Table.ofList fields)) (source : Text) :
    e.KeptIn (ofValue (.object fields) source).1 ↔
      e.isUsable ∧ e.subject ≠ .binding Table.reserved := by
  obtain ⟨subject, value⟩ := e
  rcases mem_all.1 he with ⟨name, rfl, hget⟩ | ⟨name, v, rfl, hget, hvalue⟩
  · simp [option_keptIn_iff hget]
  · simp [binding_keptIn_iff hget hvalue]

/-- An entry is accounted for, unless it is a variable of the reserved name that could be used. -/
theorem accounted_iff {fields : List (Text × Value)} {e : Entry}
    (he : e ∈ all (Table.ofList fields)) (source : Text) :
    e.Accounted (ofValue (.object fields) source) ↔
      ¬(e.isUsable ∧ e.subject = .binding Table.reserved) := by
  unfold Accounted
  rw [keptIn_iff he, warnings_ofValue, mem_complaints_iff (distinct_all _) he]
  cases e.isUsable <;> simp

section

variable {fields : List (Text × Value)} {source name : Text}

/-! Nothing is kept but entries. -/

theorem mem_all_of_switch? {w : Switch} {b : Bool}
    (h : (ofValue (.object fields) source).1.switch? w = some b) :
    ⟨.option w.name, .bool b⟩ ∈ all (Table.ofList fields) := by
  rw [switch?_ofValue] at h
  obtain ⟨v, hv, hb⟩ := Option.bind_eq_some_iff.1 h
  obtain rfl := Value.bool?_eq_some_iff.1 hb
  exact mem_all.2 (.inl ⟨w.name, rfl, hv⟩)

theorem exists_mem_all_of_bindings
    (h : (ofValue (.object fields) source).1.bindings.isSome) :
    ∃ v, ⟨.option "variables", v⟩ ∈ all (Table.ofList fields) ∧ v.fields?.isSome := by
  rw [bindings_ofValue, Option.isSome_map] at h
  obtain ⟨inner, hinner⟩ := Option.isSome_iff_exists.1 h
  obtain ⟨v, hv, hobject⟩ := Option.bind_eq_some_iff.1 hinner
  exact ⟨v, mem_all.2 (.inl ⟨Text.ofString "variables", rfl, hv⟩),
    Option.isSome_of_eq_some hobject⟩

theorem exists_mem_all_of_binding? {x : Option Text}
    (h : (ofValue (.object fields) source).1.binding? name = some x) :
    ∃ t, x = some t ∧ ⟨.binding name, .text t⟩ ∈ all (Table.ofList fields) := by
  rw [binding?_ofValue] at h
  obtain ⟨t, ht, rfl⟩ := Option.map_eq_some_iff.1 h
  split_ifs at ht
  obtain ⟨value, hvalue, htext⟩ := Option.bind_eq_some_iff.1 ht
  obtain ⟨v, hv, hfield⟩ := Option.bind_eq_some_iff.1 hvalue
  obtain rfl := Value.text?_eq_some_iff.1 htext
  exact ⟨t, rfl, mem_all.2 (.inr ⟨name, v, rfl, hv, hfield⟩)⟩

end

end Entry

/-- Every entry of a document is kept or reported, but for a variable of the reserved name that
holds a text. The warnings are those about the unusable entries, one for each, in order, and each
shows the name of its entry. Nothing is kept that is not an entry. -/
theorem ofValue_accounts_for_entries (fields : List (Text × Value)) (source : Text) :
    let entries := Entry.all (Table.ofList fields)
    let found := ofValue (.object fields) source
    found.2 = Entry.complaints source entries ∧
    (∀ e ∈ entries,
      (e.KeptIn found.1 ↔ e.isUsable ∧ e.subject ≠ .binding Table.reserved) ∧
      (found.2.filter fun w => w.subject? = some e.subject) =
        (if e.isUsable then [] else [e.complaint source]) ∧
      (e.Accounted found ↔ ¬(e.isUsable ∧ e.subject = .binding Table.reserved))) ∧
    (∀ w ∈ found.2, ∃ e ∈ entries, w.subject? = some e.subject ∧
      Text.quote :: e.subject.name ++ [Text.quote] <:+: w.message) ∧
    (∀ w b, found.1.switch? w = some b → ⟨.option w.name, .bool b⟩ ∈ entries) ∧
    (found.1.bindings.isSome → ∃ v, ⟨.option "variables", v⟩ ∈ entries ∧ v.fields?.isSome) ∧
    ∀ name x, found.1.binding? name = some x →
      ∃ t, x = some t ∧ ⟨.binding name, .text t⟩ ∈ entries := by
  intro entries found
  have hwarnings : found.2 = Entry.complaints source entries := warnings_ofValue fields source
  refine ⟨hwarnings, ?_, ?_, ?_, ?_, ?_⟩
  · intro e he
    have hkept := Entry.keptIn_iff he source
    have habout := Entry.filter_complaints (Entry.distinct_all _) he source
    rw [← hwarnings] at habout
    exact ⟨hkept, habout, Entry.accounted_iff he source⟩
  · intro w hw
    rw [hwarnings] at hw
    obtain ⟨e, he, rfl⟩ := List.mem_map.1 hw
    have hsubject := e.subject?_complaint source
    exact ⟨e, (List.mem_filter.1 he).1, hsubject, Warning.quoted_name_infix_message hsubject⟩
  · intro w b hb
    exact Entry.mem_all_of_switch? hb
  · intro hsome
    exact Entry.exists_mem_all_of_bindings hsome
  · intro name x hx
    exact Entry.exists_mem_all_of_binding? hx

/-- A text under the reserved name is neither kept nor reported. -/
theorem ofValue_drops_reserved_variable :
    let fields : List (Text × Value) :=
      [("variables", .object [("__proto__", .text "x")])]
    let found := ofValue (.object fields) "s"
    ⟨.binding "__proto__", .text "x"⟩ ∈ Entry.all (Table.ofList fields) ∧
    found.1.binding? "__proto__" = none ∧ found.2 = [] ∧
    ¬∀ e ∈ Entry.all (Table.ofList fields), e.Accounted found := by
  intro fields found
  have hmem : ⟨.binding "__proto__", .text "x"⟩ ∈ Entry.all (Table.ofList fields) := by
    exact Entry.mem_all.2 (.inr ⟨Text.ofString "__proto__", _, rfl, rfl, rfl⟩)
  have hlost : found.1.binding? "__proto__" = none := rfl
  have hsilent : found.2 = [] := rfl
  refine ⟨hmem, hlost, hsilent, ?_⟩
  intro hall
  rcases hall _ hmem with ⟨t, -, hkept⟩ | ⟨w, hw, -⟩
  · cases hlost.symm.trans hkept
  · rw [hsilent] at hw
    cases hw

end Settings

end CommandText
