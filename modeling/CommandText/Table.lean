import CommandText.Text.Basic

/-!
# Tables of named entries

A table keeps one entry for each name and lists them in a fixed order: first the names that are
array indexes, ascending, then all others in the order in which they first came. Writing to a name
that is present changes its value and leaves it in place. The order is part of the type, so that two
tables with the same listing are the same table.
-/

namespace CommandText

namespace Text

/-- The greatest number whose numeral counts as an array index. -/
def maxIndex : Nat := 4294967294

/-- The number that a name writes as an array index: decimal digits without leading zeros. -/
def index? : Text → Option Nat
  | [] => none
  | u :: rest =>
    if u = 0x30 then if rest = [] then some 0 else none
    else
      match digits? 0 (u :: rest) with
      | some n => if n ≤ maxIndex then some n else none
      | none => none

end Text

namespace Table

/-- Index names come before other names and among themselves by number. -/
def precedes (a b : Text) : Bool :=
  match a.index?, b.index? with
  | some i, some j => i < j
  | some _, none => true
  | none, _ => false

theorem precedes_trans {a b c : Text} (hab : precedes a b) (hbc : precedes b c) :
    precedes a c := by
  unfold precedes at *
  cases ha : a.index? <;> cases hb : b.index? <;> cases hc : c.index? <;> simp_all
  omega

theorem precedes_irrefl (a : Text) : precedes a a = false := by
  unfold precedes
  cases a.index? <;> simp

/-- The first of two names may be listed before the second. -/
def MayPrecede (a b : Text) : Prop := a ≠ b ∧ precedes b a = false

/-- Writes an entry over the one of the same name, or else where its name is due. -/
def insertEntry {α : Type} (name : Text) (value : α) : List (Text × α) → List (Text × α)
  | [] => [(name, value)]
  | e :: rest =>
    if e.1 = name then (name, value) :: rest
    else if precedes name e.1 then (name, value) :: e :: rest
    else e :: insertEntry name value rest

theorem mem_insertEntry {α : Type} {name : Text} {value : α} {l : List (Text × α)}
    {e : Text × α} (h : e ∈ insertEntry name value l) : e.1 = name ∨ e ∈ l := by
  induction l with
  | nil => simp_all [insertEntry]
  | cons d rest ih =>
    rw [insertEntry] at h
    split at h
    · rcases List.mem_cons.1 h with rfl | h <;> simp_all
    · split at h
      · rcases List.mem_cons.1 h with rfl | h <;> simp_all
      · rcases List.mem_cons.1 h with rfl | h
        · simp
        · rcases ih h with h | h <;> simp [h]

theorem pairwise_insertEntry {α : Type} (name : Text) (value : α) {l : List (Text × α)}
    (h : l.Pairwise fun a b => MayPrecede a.1 b.1) :
    (insertEntry name value l).Pairwise fun a b => MayPrecede a.1 b.1 := by
  induction l with
  | nil => simp [insertEntry]
  | cons d rest ih =>
    obtain ⟨hd, hr⟩ := List.pairwise_cons.1 h
    rw [insertEntry]
    split
    · next hn =>
      refine List.pairwise_cons.2 ⟨fun e he => ?_, hr⟩
      simpa [← hn] using hd e he
    · next hn =>
      split
      · next hp =>
        refine List.pairwise_cons.2 ⟨fun e he => ?_, h⟩
        rcases List.mem_cons.1 he with rfl | he
        · refine ⟨Ne.symm hn, ?_⟩
          cases hq : precedes e.1 name with
          | false => rfl
          | true => simpa [precedes_irrefl] using precedes_trans hp hq
        · obtain ⟨_, hq⟩ := hd e he
          refine ⟨fun hne => ?_, ?_⟩
          · simp [← hne, hp] at hq
          · cases hw : precedes e.1 name with
            | false => rfl
            | true => simp [precedes_trans hw hp] at hq
      · next hp =>
        refine List.pairwise_cons.2 ⟨fun e he => ?_, ih hr⟩
        rcases mem_insertEntry he with he | he
        · rw [he]
          exact ⟨hn, by simpa using hp⟩
        · exact hd e he

end Table

/-- Named entries in listing order. -/
structure Table (α : Type) where
  entries : List (Text × α)
  ordered : entries.Pairwise fun a b => Table.MayPrecede a.1 b.1

namespace Table

variable {α β : Type}

def empty : Table α := ⟨[], .nil⟩

instance : EmptyCollection (Table α) := ⟨empty⟩

instance : Inhabited (Table α) := ⟨empty⟩

@[ext]
theorem ext {s t : Table α} (h : s.entries = t.entries) : s = t := by
  cases s
  cases t
  simp_all

def get? (t : Table α) (name : Text) : Option α := t.entries.lookup name

def insert (t : Table α) (name : Text) (value : α) : Table α :=
  ⟨insertEntry name value t.entries, pairwise_insertEntry name value t.ordered⟩

def insertNew (t : Table α) (name : Text) (value : α) : Table α :=
  if (t.get? name).isSome then t else t.insert name value

def erase (t : Table α) (name : Text) : Table α :=
  ⟨t.entries.filter fun e => e.1 != name, t.ordered.filter _⟩

/-- Writes entries one after another, so that of two values for a name the later one stays. -/
def insertAll (t : Table α) (l : List (Text × α)) : Table α :=
  l.foldl (fun t e => t.insert e.1 e.2) t

def ofList (l : List (Text × α)) : Table α := insertAll ∅ l

/-- Both tables together; where they share a name, the second one's value stays. -/
def union (s t : Table α) : Table α := s.insertAll t.entries

/-- The one name that a single definition cannot introduce. -/
def reserved : Text := "__proto__"

/-- A single definition, which leaves the table as it is when it is for the reserved name. -/
def define (t : Table α) (name : Text) (value : α) : Table α :=
  if name = reserved then t else t.insert name value

@[simp]
theorem get?_empty (name : Text) : (∅ : Table α).get? name = none := rfl

theorem lookup_cons (e : Text × α) (l : List (Text × α)) (name : Text) :
    (e :: l).lookup name = if name = e.1 then some e.2 else l.lookup name := by
  obtain ⟨n, v⟩ := e
  by_cases h : name = n
  · simp [h]
  · simp [h, List.lookup_cons, beq_eq_false_iff_ne.2 h]

theorem lookup_insertEntry (name other : Text) (value : α) (l : List (Text × α)) :
    (insertEntry name value l).lookup other =
      if other = name then some value else l.lookup other := by
  induction l with
  | nil => simp [insertEntry, lookup_cons]
  | cons d rest ih =>
    rw [insertEntry]
    split
    · next hd => by_cases h : other = name <;> simp [lookup_cons, h, hd]
    · next hd =>
      split
      · simp [lookup_cons]
      · by_cases h : other = d.1
        · simp [lookup_cons, h, hd]
        · simp [lookup_cons, h, ih]

theorem get?_insert (t : Table α) (name other : Text) (value : α) :
    (t.insert name value).get? other = if other = name then some value else t.get? other :=
  lookup_insertEntry name other value t.entries

theorem get?_insertNew (t : Table α) (name other : Text) (value : α) :
    (t.insertNew name value).get? other =
      if other = name then some ((t.get? name).getD value) else t.get? other := by
  rw [insertNew]
  cases h : t.get? name <;> by_cases ho : other = name <;> simp [h, ho, get?_insert]

theorem get?_define (t : Table α) (name other : Text) (value : α) :
    (t.define name value).get? other =
      if other = name ∧ name ≠ reserved then some value else t.get? other := by
  by_cases h : name = reserved <;> simp [define, h, get?_insert]

theorem insertEntry_of_forall_mayPrecede {name : Text} (value : α) {l : List (Text × α)}
    (h : ∀ e ∈ l, MayPrecede e.1 name) : insertEntry name value l = l ++ [(name, value)] := by
  induction l with
  | nil => rfl
  | cons e rest ih =>
    obtain ⟨he, hrest⟩ := List.forall_mem_cons.1 h
    rw [insertEntry, if_neg he.1, if_neg (by simp [he.2]), ih hrest]
    rfl

/-- Entries that are written in listing order stay in this order. -/
theorem entries_insertAll {t : Table α} {l : List (Text × α)}
    (h : (t.entries ++ l).Pairwise fun a b => MayPrecede a.1 b.1) :
    (t.insertAll l).entries = t.entries ++ l := by
  induction l generalizing t with
  | nil => exact (List.append_nil t.entries).symm
  | cons e rest ih =>
    have hlast : (t.insert e.1 e.2).entries = t.entries ++ [e] := by
      apply insertEntry_of_forall_mayPrecede
      intro d hd
      exact (List.pairwise_append.1 h).2.2 d hd e List.mem_cons_self
    have hrest := @ih (t.insert e.1 e.2) (by rwa [hlast, List.append_assoc])
    rwa [hlast, List.append_assoc] at hrest

theorem ofList_entries (t : Table α) : ofList t.entries = t := by
  apply ext
  exact @entries_insertAll _ ∅ t.entries t.ordered

end Table

end CommandText
