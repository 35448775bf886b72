import CommandText.Proofs.Accounting

/-!
# Settings read again

What is kept of a document can be written as a document of its own. Reading that one keeps
everything and reports nothing, in whatever order its fields stand: `Settings.ofValue_of_clean` says
so of all settings whose variables are texts and do not have the reserved name, and these are the
settings that come from documents. The variables come back as the same table, thus in the same
order, because their listing is written entry by entry in the order that it has already.
-/

namespace CommandText

namespace Table

variable {α β : Type}

theorem get?_ofList {l : List (Text × α)} (hl : l.Pairwise fun a b => a.1 ≠ b.1) (name : Text) :
    (ofList l).get? name = l.lookup name := by
  have h := view_foldl (fun (t : Table α) e => t.insert e.1 e.2) (fun t => t.get? name)
    (fun _ value => some value) name (by simp [get?_insert]) (by simp +contextual [get?_insert])
    hl ∅
  refine h.trans ?_
  cases l.lookup name <;> rfl

theorem get?_ofList_eq_some_iff {l : List (Text × α)} (hl : l.Pairwise fun a b => a.1 ≠ b.1)
    {name : Text} {value : α} : (ofList l).get? name = some value ↔ (name, value) ∈ l := by
  rw [get?_ofList hl, lookup_eq_some_iff_mem hl]

theorem entries_ofList_map (t : Table α) (f : α → β) :
    (ofList (t.entries.map fun e => (e.1, f e.2))).entries =
      t.entries.map fun e => (e.1, f e.2) := by
  apply @entries_insertAll _ ∅
  exact List.pairwise_map.2 t.ordered

end Table

namespace Value

def ofBinding : Option Text → Value
  | some t => .text t
  | none => .missing

def ofBindings (b : Bindings) : Value := .object (b.entries.map fun e => (e.1, ofBinding e.2))

end Value

/-- The variables are such as a document can define: each has a text, and none has the reserved
name. -/
def Bindings.Clean (b : Bindings) : Prop :=
  ∀ e ∈ b.entries, e.1 ≠ Table.reserved ∧ ∃ t, e.2 = some t

namespace Settings

/-- The settings as the fields of a document, one for each thing that is set. -/
def fields (s : Settings) : List (Text × Value) :=
  (Switch.all.filterMap fun w => (s.switch? w).map fun b => (w.name, .bool b)) ++
    s.bindings.toList.map fun b => (Text.ofString "variables", Value.ofBindings b)

theorem ext_of_switch? {s s' : Settings} (hswitch : ∀ w, s.switch? w = s'.switch? w)
    (hbindings : s.bindings = s'.bindings) : s = s' := by
  have hdebug := hswitch .debug
  have hpreserve := hswitch .preserveQuotes
  have henv := hswitch .useEnv
  cases s
  cases s'
  simp_all [switch?]

theorem mem_fields {s : Settings} {field : Text × Value} :
    field ∈ s.fields ↔
      (∃ w b, s.switch? w = some b ∧ field = (w.name, .bool b)) ∨
      ∃ b, s.bindings = some b ∧ field = (Text.ofString "variables", Value.ofBindings b) := by
  unfold fields
  simp only [List.mem_append, List.mem_filterMap, List.mem_map, Option.mem_toList,
    Option.map_eq_some_iff]
  constructor
  · rintro (⟨w, -, b, hb, rfl⟩ | ⟨b, hb, rfl⟩)
    · exact .inl ⟨w, b, hb, rfl⟩
    · exact .inr ⟨b, hb, rfl⟩
  · rintro (⟨w, b, hb, rfl⟩ | ⟨b, hb, rfl⟩)
    · exact .inl ⟨w, by cases w <;> decide, b, hb, rfl⟩
    · exact .inr ⟨b, hb, rfl⟩

theorem distinct_fields (s : Settings) : s.fields.Pairwise fun a b => a.1 ≠ b.1 := by
  have hswitches : Switch.all.Pairwise fun v w => v.name ≠ w.name := by decide
  refine List.pairwise_append.2 ⟨?_, ?_, ?_⟩
  · apply hswitches.filterMap
    intro v w hne a ha b hb
    obtain ⟨x, -, rfl⟩ := Option.map_eq_some_iff.1 ha
    obtain ⟨y, -, rfl⟩ := Option.map_eq_some_iff.1 hb
    exact hne
  · cases s.bindings <;> simp
  · intro a ha b hb
    obtain ⟨w, -, hw⟩ := List.mem_filterMap.1 ha
    obtain ⟨x, -, rfl⟩ := Option.map_eq_some_iff.1 hw
    obtain ⟨y, -, rfl⟩ := List.mem_map.1 hb
    exact w.name_ne_variables

theorem clean_readVariables (source : Text) (fields : Table Value) :
    (readVariables source fields).1.Clean := by
  rintro ⟨name, value⟩ he
  have hget := Table.get?_eq_some_iff_mem.2 he
  rw [get?_readVariables] at hget
  obtain ⟨t, ht, rfl⟩ := Option.map_eq_some_iff.1 hget
  split_ifs at ht with hname
  exact ⟨hname, t, rfl⟩

theorem foldl_readVariable {source : Text} {l : List (Text × Option Text)}
    (hl : ∀ e ∈ l, e.1 ≠ Table.reserved ∧ ∃ t, e.2 = some t) (b : Bindings)
    (warnings : List Warning) :
    (l.map fun e => (e.1, Value.ofBinding e.2)).foldl (readVariable source) (b, warnings) =
      (b.insertAll l, warnings) := by
  induction l generalizing b with
  | nil => rfl
  | cons e rest ih =>
    obtain ⟨⟨hname, t, ht⟩, hrest⟩ := List.forall_mem_cons.1 hl
    have hstep : readVariable source (b, warnings) (e.1, Value.ofBinding e.2) =
        (b.insert e.1 e.2, warnings) := by
      rw [ht]
      simp [readVariable, Value.ofBinding, Table.define, hname]
    rw [List.map_cons, List.foldl_cons, hstep, ih hrest]
    rfl

theorem readVariables_ofBindings {b : Bindings} (h : b.Clean) (source : Text) :
    readVariables source (Table.ofList (b.entries.map fun e => (e.1, Value.ofBinding e.2))) =
      (b, []) := by
  unfold readVariables
  rw [Table.entries_ofList_map b Value.ofBinding, foldl_readVariable h]
  exact congrArg (·, []) (Table.ofList_entries b)

/-- Nothing is set that a document could not set. -/
def Clean (s : Settings) : Prop := ∀ b, s.bindings = some b → b.Clean

theorem clean_ofValue (raw : Value) (source : Text) : (ofValue raw source).1.Clean := by
  intro b hb
  rw [bindings_ofValue] at hb
  obtain ⟨fields, -, rfl⟩ := Option.map_eq_some_iff.1 hb
  exact clean_readVariables source fields

section

variable {s : Settings} {fields : List (Text × Value)} (hperm : fields.Perm s.fields)

include hperm

theorem field?_of_perm {name : Text} {value : Value} :
    (Value.object fields).field? name = some value ↔ (name, value) ∈ s.fields := by
  have hdistinct : fields.Pairwise fun a b => a.1 ≠ b.1 :=
    hperm.symm.pairwise s.distinct_fields fun h => Ne.symm h
  rw [← hperm.mem_iff]
  exact Table.get?_ofList_eq_some_iff hdistinct

theorem field?_switch (w : Switch) :
    ((Value.object fields).field? w.name).bind Value.bool? = s.switch? w := by
  ext b
  rw [Option.bind_eq_some_iff]
  simp only [field?_of_perm hperm, mem_fields, Value.bool?_eq_some_iff]
  constructor
  · rintro ⟨v, ⟨w', b', hb, h⟩ | ⟨b', -, h⟩, rfl⟩
    · obtain ⟨hname, hvalue⟩ := Prod.mk.inj h
      obtain rfl := Switch.name_injective hname
      cases hvalue
      exact hb
    · exact absurd (Prod.mk.inj h).1 w.name_ne_variables
  · intro hb
    exact ⟨_, .inl ⟨w, b, hb, rfl⟩, rfl⟩

theorem field?_variables :
    (Value.object fields).field? "variables" = s.bindings.map Value.ofBindings := by
  ext v
  rw [field?_of_perm hperm, mem_fields, Option.map_eq_some_iff]
  constructor
  · rintro (⟨w, b, -, h⟩ | ⟨b, hb, h⟩)
    · exact absurd (Prod.mk.inj h).1.symm w.name_ne_variables
    · exact ⟨b, hb, (Prod.mk.inj h).2.symm⟩
  · rintro ⟨b, hb, rfl⟩
    exact .inr ⟨b, hb, rfl⟩

theorem isUsable_of_mem_all (hclean : s.Clean) {e : Entry}
    (he : e ∈ Entry.all (Table.ofList fields)) : e.isUsable := by
  obtain ⟨subject, value⟩ := e
  rcases Entry.mem_all.1 he with ⟨name, rfl, hget⟩ | ⟨name, v, rfl, hget, hvalue⟩
  · rcases mem_fields.1 ((field?_of_perm hperm).1 hget) with ⟨w, b, -, h⟩ | ⟨b, -, h⟩
    · have hw := Switch.ofName?_eq_some_iff.2 (rfl : w.name = w.name)
      cases h
      simp [Entry.isUsable, hw, Value.bool?]
    · have hnone : Switch.ofName? (Text.ofString "variables") = none := by decide
      cases h
      simp [Entry.isUsable, hnone, Value.fields?]
  · obtain ⟨b, hb, rfl⟩ :=
      Option.map_eq_some_iff.1 ((field?_variables hperm).symm.trans hget)
    have hmem := Table.get?_eq_some_iff_mem.1 hvalue
    rw [Table.entries_ofList_map b Value.ofBinding] at hmem
    obtain ⟨e, he, heq⟩ := List.mem_map.1 hmem
    obtain ⟨-, t, ht⟩ := hclean b hb e he
    obtain ⟨-, rfl⟩ := Prod.mk.inj heq
    rw [ht]
    rfl

/-- A document that writes down clean settings is read as these settings, without a warning. -/
theorem ofValue_of_clean (hclean : s.Clean) (source : Text) :
    ofValue (.object fields) source = (s, []) := by
  have hsettings : (ofValue (.object fields) source).1 = s := by
    apply ext_of_switch?
    · intro w
      rw [switch?_ofValue, field?_switch hperm]
    · rw [bindings_ofValue, field?_variables hperm]
      cases hb : s.bindings with
      | none => rfl
      | some b =>
        have hread := readVariables_ofBindings (hclean b hb) source
        exact congrArg (fun x => some x.1) hread
  have hwarnings : (ofValue (.object fields) source).2 = [] := by
    rw [warnings_ofValue]
    unfold Entry.complaints
    rw [List.map_eq_nil_iff, List.filter_eq_nil_iff]
    intro e he
    simpa using isUsable_of_mem_all hperm hclean he
  exact Prod.ext hsettings hwarnings

end

/-- What was kept of any value, written down as a document with its fields in any order, is read as
the same settings, with the variables in the same order, and without a warning. The two sources may
have any names. -/
theorem ofValue_idempotent (raw : Value) (source source' : Text) {fields : List (Text × Value)}
    (hfields : fields.Perm (ofValue raw source).1.fields) :
    ofValue (.object fields) source' = ((ofValue raw source).1, []) :=
  ofValue_of_clean hfields (clean_ofValue raw source) source'

/-- A document with numbers and the reserved name among its variables, and with fields that cannot
be used. -/
def unclean : Value :=
  .object [
    ("variables", .object [
      ("b", .text "1"), ("10", .text "2"), ("__proto__", .text "x"), ("2", .text "3"),
      ("n", .null)]),
    ("useEnv", .text "no"),
    ("debug", .bool true),
    ("colour", .null)]

def cleaned : List (Text × Value) :=
  [
    ("debug", .bool true),
    ("variables", .object [("2", .text "3"), ("10", .text "2"), ("b", .text "1")])]

/-- One switch and three variables are kept, and they are read again with the variables first. -/
theorem ofValue_idempotent_unclean :
    (ofValue unclean "first").1.fields = cleaned ∧
      ofValue (.object cleaned.reverse) "second" = ((ofValue unclean "first").1, []) := by
  have hkept : (ofValue unclean "first").1.fields = cleaned := rfl
  refine ⟨hkept, ofValue_idempotent unclean "first" "second" ?_⟩
  rw [hkept]
  exact cleaned.reverse_perm

end Settings

end CommandText
