import CommandText.Lookup.Session
import CommandText.Proofs.Accounting
import CommandText.Proofs.Resolution
import Mathlib.Data.List.Infix

/-!
# Lookups as snapshots of their sources

However deeply the rows of a source are nested, its lookup searches one row of leaves. What a leaf
has for a name is said about the listing of its table at the time when the lookup is made. To see
that later changes do not matter, lookups are also made in a memory: each leaf reads the table at an
address and writes a copy of its own to a new address, the finished lookup reads the copies only, and
changes reach the tables only.
-/

namespace CommandText

/-- A table at the end of a branch, and how names are compared in it. -/
inductive Leaf where
  | record (entries : Bindings)
  | environment (entries : Environment) (ignoreCase : Bool)

namespace Leaf

/-- A record has its own entries with a value, the one of the empty name included. An environment
has, for a name that is not empty, the first entry that matches it. -/
def Resolves : Leaf → Text → Text → Prop
  | record entries, name, value => (name, some value) ∈ entries.entries
  | environment entries ignoreCase, name, value =>
    name ≠ [] ∧ Lookup.FirstMatch entries.entries ignoreCase name value

def lookup : Leaf → Lookup
  | record entries => Lookup.ofRecord entries
  | environment entries ignoreCase => Lookup.ofEnvironment entries ignoreCase

theorem resolves_record_iff {entries : Bindings} {name value : Text} :
    (record entries).Resolves name value ↔ Lookup.ofRecord entries name = some value := by
  unfold Resolves Lookup.ofRecord Bindings.value?
  rw [Option.join_eq_some_iff]
  exact Table.get?_eq_some_iff_mem.symm

theorem resolves_iff {leaf : Leaf} {name value : Text} :
    leaf.Resolves name value ↔ leaf.lookup name = some value := by
  cases leaf with
  | record => exact resolves_record_iff
  | environment => exact Lookup.ofEnvironment_eq_some_iff.symm

end Leaf

/-- A name is answered by the first of the leaves that resolves it. -/
def Answers (leaves : List Leaf) (name : Text) (answer : Option Text) : Prop :=
  FirstOf (leaves.map fun leaf => leaf.Resolves name) answer

theorem answers_iff {leaves : List Leaf} {name : Text} {answer : Option Text} :
    Answers leaves name answer ↔ answer = leaves.findSome? fun leaf => leaf.lookup name := by
  have hvalues : List.Forall₂ (fun source value => ∀ v, source v ↔ value = some v)
      (leaves.map fun leaf => leaf.Resolves name) (leaves.map fun leaf => leaf.lookup name) := by
    rw [List.forall₂_map_left_iff, List.forall₂_map_right_iff, List.forall₂_same]
    intro leaf _ value
    exact leaf.resolves_iff
  unfold Answers
  rw [firstOf_iff hvalues, List.findSome?_map]
  rfl

namespace Source

mutual

/-- The leaves of a source, depth first and from left to right. -/
def leaves : Source → List Leaf
  | nothing => []
  | record entries => [.record entries]
  | environment entries ignoreCase => [.environment entries ignoreCase]
  | ambient entries ignoreCase => [.environment entries ignoreCase]
  | chain sources => leavesOf sources

def leavesOf : List Source → List Leaf
  | [] => []
  | s :: rest => s.leaves ++ leavesOf rest

end

mutual

/-- The lookup of a source searches the row of its leaves. -/
theorem lookup_eq (name : Text) :
    ∀ s : Source, s.lookup name = s.leaves.findSome? fun leaf => leaf.lookup name
  | nothing => rfl
  | record entries => by simp [lookup, leaves, Leaf.lookup]
  | environment entries ignoreCase => by simp [lookup, leaves, Leaf.lookup]
  | ambient entries ignoreCase => by simp [lookup, leaves, Leaf.lookup]
  | chain sources => by
    rw [lookup, leaves]
    exact chain_lookups_eq name sources

theorem chain_lookups_eq (name : Text) :
    ∀ sources : List Source, Lookup.chain (lookups sources) name =
      (leavesOf sources).findSome? fun leaf => leaf.lookup name
  | [] => rfl
  | s :: rest => by
    have hrest := chain_lookups_eq name rest
    unfold Lookup.chain at hrest ⊢
    rw [lookups, leavesOf, List.findSome?_cons, List.findSome?_append, hrest, lookup_eq name s]
    cases s.leaves.findSome? fun leaf => leaf.lookup name <;> rfl

end

theorem answers_lookup (s : Source) (name : Text) : Answers s.leaves name (s.lookup name) :=
  answers_iff.2 (s.lookup_eq name)

end Source

namespace Session

/-- The names that are asked for, in order. -/
def asked : List Step → List Text
  | [] => []
  | .get name :: steps => name :: asked steps
  | _ :: steps => asked steps

@[simp]
theorem lookup_after (s : Session) (step : Step) : (s.after step).lookup = s.lookup := by
  cases step <;> rfl

theorem answers_eq (s : Session) (steps : List Step) :
    s.answers steps = (asked steps).map s.lookup := by
  induction steps generalizing s with
  | nil => rfl
  | cons step rest ih => cases step <;> simp [answers, asked, ih]

end Session

/-- The same entries, all of which have a value. -/
def Bindings.ofTable (t : Table Text) : Bindings where
  entries := t.entries.map fun e => (e.1, some e.2)
  ordered := List.pairwise_map.2 t.ordered

theorem Bindings.value?_ofTable (t : Table Text) (name : Text) :
    (ofTable t).value? name = t.get? name := by
  have hlookup : ∀ l : List (Text × Text),
      (l.map fun e => (e.1, some e.2)).lookup name = (l.lookup name).map some := by
    intro l
    induction l with
    | nil => rfl
    | cons e rest ih =>
      rw [List.map_cons, Table.lookup_cons, Table.lookup_cons, ih]
      split_ifs <;> rfl
  unfold value? Table.get? ofTable
  rw [hlookup]
  cases t.entries.lookup name <;> rfl

/-- The tables that exist, each at its address. -/
abbrev Memory := List Bindings

namespace Memory

def fetch (memory : Memory) (address : Nat) : Bindings := memory[address]?.getD ∅

def change (reach : Nat) (memory : Memory) (address : Nat) (f : Bindings → Bindings) : Memory :=
  if address < reach then memory.modify address f else memory

/-- Carries out a change; a question changes nothing. -/
def after (reach : Nat) (memory : Memory) : Session.Step → Memory
  | .get _ => memory
  | .set i name value => memory.change reach i fun t => t.insert name value
  | .delete i name => memory.change reach i fun t => t.erase name

/-- The tables out of reach are as they were; others may have been added behind them. -/
def Keeps (reach : Nat) (memory later : Memory) : Prop :=
  memory.drop reach <+: later.drop reach

variable {reach : Nat} {memory later : Memory}

theorem keeps_change (address : Nat) (f : Bindings → Bindings) :
    Keeps reach memory (memory.change reach address f) := by
  unfold Keeps change
  split_ifs with haddress
  · rw [List.drop_modify_of_lt f address reach memory haddress]
  · exact List.prefix_refl _

theorem keeps_after (step : Session.Step) : Keeps reach memory (memory.after reach step) := by
  cases step with
  | get => exact List.prefix_refl _
  | set i name value => exact keeps_change i _
  | delete i name => exact keeps_change i _

theorem fetch_eq_get {objects : Memory} (h : objects <+: memory) (address : Fin objects.length) :
    memory.fetch address = objects.get address := by
  obtain ⟨rest, rfl⟩ := h
  simp [fetch, List.getElem?_append_left]

theorem Keeps.fetch_length {table : Bindings} (hreach : reach ≤ memory.length)
    (h : Keeps reach (memory ++ [table]) later) : later.fetch memory.length = table := by
  have hlast : (later.drop reach)[memory.length - reach]? = some table := by
    unfold Keeps at h
    rw [List.drop_append_of_le_length hreach] at h
    obtain ⟨rest, hrest⟩ := h
    rw [← hrest]
    simp
  rw [List.getElem?_drop, Nat.add_sub_cancel' hreach] at hlast
  simp [fetch, hlast]

end Memory

/-- How a lookup is put together from tables that are given by their addresses. -/
inductive Wiring (α : Type) where
  | nothing
  | record (address : α)
  | environment (address : α) (ignoreCase : Bool)
  | chain (parts : List (Wiring α))

namespace Wiring

mutual

def source (objects : Memory) : Wiring (Fin objects.length) → Source
  | nothing => .nothing
  | record address => .record (objects.get address)
  | environment address ignoreCase => .environment (objects.get address) ignoreCase
  | chain parts => .chain (sources objects parts)

def sources (objects : Memory) : List (Wiring (Fin objects.length)) → List Source
  | [] => []
  | part :: rest => part.source objects :: sources objects rest

end

mutual

/-- Makes a lookup. Each leaf copies its table to a new address, under the names by which it will be
read. -/
def make {n : Nat} : Wiring (Fin n) → Memory → Wiring Nat × Memory
  | nothing, memory => (nothing, memory)
  | record address, memory =>
    (record memory.length, memory ++ [Table.ofList (memory.fetch address).entries])
  | environment address ignoreCase, memory =>
    (environment memory.length ignoreCase,
      memory ++ [Bindings.ofTable (Lookup.snapshot (memory.fetch address) ignoreCase)])
  | chain parts, memory => (chain (makeAll parts memory).1, (makeAll parts memory).2)

def makeAll {n : Nat} : List (Wiring (Fin n)) → Memory → List (Wiring Nat) × Memory
  | [], memory => ([], memory)
  | part :: rest, memory =>
    ((part.make memory).1 :: (makeAll rest (part.make memory).2).1,
      (makeAll rest (part.make memory).2).2)

end

mutual

def ask (memory : Memory) (name : Text) : Wiring Nat → Option Text
  | nothing => none
  | record address => (memory.fetch address).value? name
  | environment address ignoreCase =>
    if name = [] then none else (memory.fetch address).value? (Lookup.fold ignoreCase name)
  | chain parts => askAll memory name parts

def askAll (memory : Memory) (name : Text) : List (Wiring Nat) → Option Text
  | [] => none
  | part :: rest => (part.ask memory name).or (askAll memory name rest)

end

/-- The answers to the questions among the steps, while changes are made to tables within reach. -/
def answers (made : Wiring Nat) (reach : Nat) : Memory → List Session.Step → List (Option Text)
  | _, [] => []
  | memory, .get name :: steps => made.ask memory name :: answers made reach memory steps
  | memory, step :: steps => answers made reach (memory.after reach step) steps

/-- Makes a lookup of the tables that exist and carries out the steps. -/
def run (objects : Memory) (w : Wiring (Fin objects.length)) (steps : List Session.Step) :
    List (Option Text) :=
  (w.make objects).1.answers objects.length (w.make objects).2 steps

mutual

theorem prefix_make {n : Nat} :
    ∀ (w : Wiring (Fin n)) (memory : Memory), memory <+: (w.make memory).2
  | nothing, memory => List.prefix_refl memory
  | record _, memory => List.prefix_append memory _
  | environment _ _, memory => List.prefix_append memory _
  | chain parts, memory => prefix_makeAll parts memory

theorem prefix_makeAll {n : Nat} :
    ∀ (parts : List (Wiring (Fin n))) (memory : Memory), memory <+: (makeAll parts memory).2
  | [], memory => List.prefix_refl memory
  | part :: rest, memory =>
    (prefix_make part memory).trans (prefix_makeAll rest (part.make memory).2)

end

mutual

/-- As long as its copies are kept, a lookup answers from the tables as they were. -/
theorem ask_make (objects : Memory) (name : Text) :
    ∀ (w : Wiring (Fin objects.length)) {memory later : Memory}, objects <+: memory →
      Memory.Keeps objects.length (w.make memory).2 later →
        (w.make memory).1.ask later name = (w.source objects).lookup name
  | nothing, _, _, _, _ => rfl
  | record address, memory, later, hobjects, hkeeps => by
    have hcopy := Memory.Keeps.fetch_length hobjects.length_le hkeeps
    rw [Table.ofList_entries, Memory.fetch_eq_get hobjects] at hcopy
    simp [make, ask, source, Source.lookup, Lookup.ofRecord, hcopy]
  | environment address ignoreCase, memory, later, hobjects, hkeeps => by
    have hcopy := Memory.Keeps.fetch_length hobjects.length_le hkeeps
    rw [Memory.fetch_eq_get hobjects] at hcopy
    simp [make, ask, source, Source.lookup, Lookup.ofEnvironment, hcopy, Bindings.value?_ofTable]
  | chain parts, _, _, hobjects, hkeeps => askAll_makeAll objects name parts hobjects hkeeps

theorem askAll_makeAll (objects : Memory) (name : Text) :
    ∀ (parts : List (Wiring (Fin objects.length))) {memory later : Memory}, objects <+: memory →
      Memory.Keeps objects.length (makeAll parts memory).2 later →
        askAll later name (makeAll parts memory).1 =
          Lookup.chain (Source.lookups (sources objects parts)) name
  | [], _, _, _, _ => rfl
  | part :: rest, memory, later, hobjects, hkeeps => by
    -- The copies of the first part come before those of the others, so they are kept as well.
    have hfirst : Memory.Keeps objects.length (part.make memory).2 later :=
      (List.IsPrefix.drop (prefix_makeAll rest (part.make memory).2) _).trans hkeeps
    have hpart := ask_make objects name part hobjects hfirst
    have hrest := askAll_makeAll objects name rest
      (hobjects.trans (prefix_make part memory)) hkeeps
    unfold Lookup.chain at hrest ⊢
    rw [makeAll, askAll, sources, Source.lookups, List.findSome?_cons, hpart, hrest]
    cases (part.source objects).lookup name <;> rfl

end

theorem answers_eq {made : Wiring Nat} {reach : Nat} {memory : Memory} {lookup : Lookup}
    (hask : ∀ later name, Memory.Keeps reach memory later → made.ask later name = lookup name)
    (steps : List Session.Step) :
    made.answers reach memory steps = (Session.asked steps).map lookup := by
  induction steps generalizing memory with
  | nil => rfl
  | cons step rest ih =>
    -- Copies that are kept from the changed memory on are kept from the present one on.
    have hrest := @ih (memory.after reach step) fun later name hkeeps =>
      hask later name ((Memory.keeps_after step).trans hkeeps)
    cases step with
    | get name =>
      rw [answers, Session.asked, List.map_cons, hask memory name (List.prefix_refl _)]
      exact congrArg _ hrest
    | set => exact hrest
    | delete => exact hrest

theorem run_eq (objects : Memory) (w : Wiring (Fin objects.length)) (steps : List Session.Step) :
    w.run objects steps = (Session.asked steps).map (w.source objects).lookup := by
  apply answers_eq
  intro later name hkeeps
  exact ask_make objects name w (List.prefix_refl objects) hkeeps

end Wiring

theorem Source.forall₂_answers (s : Source) (names : List Text) :
    List.Forall₂ (Answers s.leaves) names (names.map s.lookup) := by
  rw [List.forall₂_map_right_iff, List.forall₂_same]
  intro name _
  exact s.answers_lookup name

/-- Whatever becomes of the tables after a lookup has been made, each question is answered by the
first leaf that resolves the name in the tables as they were. This holds of sessions, and of lookups
that are made in a memory from tables that several leaves may share. -/
theorem lookups_are_snapshots :
    (∀ (s : Source) (steps : List Session.Step),
      List.Forall₂ (Answers s.leaves) (Session.asked steps) ((Session.start s).answers steps)) ∧
    ∀ (objects : Memory) (w : Wiring (Fin objects.length)) (steps : List Session.Step),
      List.Forall₂ (Answers (w.source objects).leaves) (Session.asked steps)
        (w.run objects steps) := by
  constructor
  · intro s steps
    rw [Session.answers_eq]
    exact s.forall₂_answers (Session.asked steps)
  · intro objects w steps
    rw [Wiring.run_eq]
    exact (w.source objects).forall₂_answers (Session.asked steps)

-- A lookup that read the table itself would answer differently after a change.
example :
    let objects : Memory := [(∅ : Bindings).insert "a" (some "1")]
    let steps : List Session.Step := [.delete 0 "a", .get "a"]
    (Wiring.record 0).run objects steps = [some (Text.ofString "1")] ∧
      (Wiring.record 0).answers 1 objects steps = [none] := by
  decide +kernel

-- Regardless of case, the first of the entries counts, and a sharp s has two capital letters.
example :
    let objects : Memory := [Table.ofList [("Path", some "1"), ("PATH", some "2"),
      ([0xDF], some "3")]]
    let steps : List Session.Step := [.get "path", .set 0 "path" (some "4"), .get "PATH", .get "sS"]
    (Wiring.environment 0 true).run objects steps =
        [some (Text.ofString "1"), some (Text.ofString "1"), some (Text.ofString "3")] ∧
      (Wiring.environment 0 false).run objects steps =
        [none, some (Text.ofString "2"), none] := by
  decide +kernel

end CommandText
