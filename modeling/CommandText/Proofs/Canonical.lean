import CommandText.Proofs.Definitions

/-!
# The grammar of arguments and their canonical form

Arguments are a row of items, each a flag, a definition or a word, with nothing behind it or a
double dash and any words. Reading takes one item after another, and it accepts exactly the rows of
this form; in any other row there is a first item that offends, and the error names it. An item
changes one part of what the arguments ask for and leaves the others alone, so the order of items of
different kinds does not matter: flags first, then definitions in listing order, then a double dash
and all words ask for the same.
-/

namespace CommandText

namespace Text

abbrev dash : UInt16 := 0x2D

end Text

namespace Flag

/-- The arguments that raise a flag. -/
def spellings : Flag → List Text
  | preserveQuotes => [Text.ofString "--preserve-quotes", Text.ofString "-q"]
  | json => [Text.ofString "--json", Text.ofString "-j"]
  | noEnv => [Text.ofString "--no-env"]
  | verbose => [Text.ofString "--verbose", Text.ofString "-v"]
  | help => [Text.ofString "--help", Text.ofString "-h"]

def all : List Flag := [help, preserveQuotes, json, noEnv, verbose]

theorem mem_all (flag : Flag) : flag ∈ all := by
  cases flag <;> decide

theorem ofText?_eq_some_iff {x : Text} {flag : Flag} :
    ofText? x = some flag ↔ x ∈ flag.spellings := by
  constructor
  · intro h
    unfold ofText? at h
    split_ifs at h with h₁ h₂ h₃ h₄ h₅ <;> cases h <;> simpa [spellings]
  · intro h
    cases flag <;> simp only [spellings, List.mem_cons, List.not_mem_nil, or_false] at h
    case noEnv => subst h; decide
    all_goals rcases h with rfl | rfl <;> decide

theorem ofText?_eq_none_iff {x : Text} :
    ofText? x = none ↔ ∀ flag : Flag, x ∉ flag.spellings := by
  rw [Option.eq_none_iff_forall_ne_some]
  exact forall_congr' fun flag => not_congr ofText?_eq_some_iff

end Flag

namespace Arguments

theorem isDashed_iff {x : Text} : isDashed x ↔ x.head? = some Text.dash ∧ x ≠ [Text.dash] := by
  rcases x with - | ⟨u, - | ⟨v, x⟩⟩ <;> simp [isDashed]

theorem isDashed_of_mem_spellings {x : Text} {flag : Flag} (h : x ∈ flag.spellings) :
    isDashed x := by
  have hall : ∀ y ∈ flag.spellings, isDashed y = true := by cases flag <;> decide
  exact hall x h

theorem plain_of_not_isDashed {x : Text} (h : ¬isDashed x) :
    x ≠ separator ∧ Flag.ofText? x = none ∧ ¬isDefine x := by
  refine ⟨?_, ?_, ?_⟩
  · rintro rfl
    exact h (by decide)
  · apply Flag.ofText?_eq_none_iff.2
    intro flag hflag
    exact h (isDashed_of_mem_spellings hflag)
  · intro hdefine
    rcases isDefine_iff.1 hdefine with rfl | rfl <;> exact h (by decide)

theorem not_isDashed_iff {x : Text} :
    ¬isDashed x ↔ x.head? ≠ some Text.dash ∨ x = [Text.dash] := by
  rw [isDashed_iff, Decidable.not_and_iff_or_not, Decidable.not_not]

theorem definition?_append {name : Text} (hname : name ≠ []) (hcut : Text.equals ∉ name)
    (value : Text) : definition? (name ++ Text.equals :: value) = some (name, value) := by
  unfold definition?
  rw [Text.cut?_append hcut]
  simp only [if_neg hname]

theorem definition?_eq_none_iff {t : Text} :
    definition? t = none ↔ Text.equals ∉ t ∨ t.head? = some Text.equals := by
  unfold definition?
  cases hcut : t.cut? Text.equals with
  | none => simp [Text.cut?_eq_none_iff.1 hcut]
  | some found =>
    obtain ⟨name, value⟩ := found
    obtain ⟨rfl, hname⟩ := Text.cut?_eq_some hcut
    cases name with
    | nil => simp
    | cons u name =>
      have hu : u ≠ Text.equals := by
        rintro rfl
        exact hname List.mem_cons_self
      simp [hu]

/-- A flag, a definition with its option, or a word. -/
inductive Item where
  | flag (flag : Flag) (spelling : Text) (known : spelling ∈ flag.spellings)
  | define (option name value : Text) (known : isDefine option) (named : name ≠ [])
      (cut : Text.equals ∉ name)
  | word (t : Text) (plain : t.head? ≠ some Text.dash ∨ t = [Text.dash])

namespace Item

def texts : Item → List Text
  | flag _ spelling _ => [spelling]
  | define option name value _ _ _ => [option, name ++ Text.equals :: value]
  | word t _ => [t]

/-- What an item asks for, on top of what was asked for before. -/
def applyTo (a : Arguments) : Item → Arguments
  | flag f _ _ => a.raise f
  | define _ name value _ _ _ => { a with defines := a.defines.define name value }
  | word t _ => { a with words := a.words ++ [t] }

end Item

/-- What may stand behind the items: nothing, or a separator and words of any kind. -/
inductive Closing where
  | none
  | words (behind : List Text)

namespace Closing

def texts : Closing → List Text
  | none => []
  | words behind => separator :: behind

def applyTo (a : Arguments) : Closing → Arguments
  | none => a
  | words behind => { a with words := a.words ++ behind }

end Closing

/-- An item that cannot be read stands at the start of the arguments, and the message names it. -/
inductive Offends : List Text → Text → Prop
  | missing {option : Text} (known : isDefine option) :
      Offends [option] (Text.ofString "Missing NAME=VALUE after " ++ option)
  | invalid {option definition : Text} {rest : List Text} (known : isDefine option)
      (uncut : Text.equals ∉ definition ∨ definition.head? = some Text.equals) :
      Offends (option :: definition :: rest)
        (Text.ofString "Invalid definition '" ++ definition ++
          Text.ofString "', expected NAME=VALUE")
  | unknown {option : Text} {rest : List Text} (dashed : option.head? = some Text.dash)
      (long : option ≠ [Text.dash]) (plain : option ≠ separator)
      (flagless : ∀ flag : Flag, option ∉ flag.spellings) (undefining : ¬isDefine option) :
      Offends (option :: rest) (Text.ofString "Unknown option: " ++ option)

variable {a b : Arguments} {argv rest : List Text} {x name value : Text}

theorem ofText?_of_isDefine (h : isDefine x) : Flag.ofText? x = none := by
  rcases isDefine_iff.1 h with rfl | rfl <;> decide

theorem readOnto_flag {flag : Flag} (h : Flag.ofText? x = some flag) :
    readOnto a (x :: rest) = readOnto (a.raise flag) rest := by
  rw [readOnto.eq_def]
  simp only [if_neg (plain_of_flag h).1, h]

theorem readOnto_define {option : Text} (h : isDefine option) (hname : name ≠ [])
    (hcut : Text.equals ∉ name) :
    readOnto a (option :: (name ++ Text.equals :: value) :: rest) =
      readOnto { a with defines := a.defines.define name value } rest := by
  rw [readOnto.eq_def]
  simp only [if_neg (plain_of_isDefine h).1, ofText?_of_isDefine h, if_pos h,
    definition?_append hname hcut]

theorem readOnto_word (h : ¬isDashed x) :
    readOnto a (x :: rest) = readOnto { a with words := a.words ++ [x] } rest := by
  obtain ⟨hplain, hflag, hdefine⟩ := plain_of_not_isDashed h
  rw [readOnto.eq_def]
  simp only [if_neg hplain, hflag, if_neg hdefine, if_neg h]

/-- Reading takes the first item and goes on behind it. -/
theorem readOnto_item (a : Arguments) (item : Item) (rest : List Text) :
    readOnto a (item.texts ++ rest) = readOnto (item.applyTo a) rest := by
  cases item with
  | flag flag spelling known => exact readOnto_flag (Flag.ofText?_eq_some_iff.2 known)
  | define option name value known named cut => exact readOnto_define known named cut
  | word t plain => exact readOnto_word (not_isDashed_iff.2 plain)

theorem readOnto_items (a : Arguments) (items : List Item) (rest : List Text) :
    readOnto a (items.flatMap Item.texts ++ rest) =
      readOnto (items.foldl Item.applyTo a) rest := by
  induction items generalizing a with
  | nil => rfl
  | cons item items ih =>
    rw [List.flatMap_cons, List.append_assoc, readOnto_item, ih]
    rfl

theorem readOnto_closing (a : Arguments) (closing : Closing) :
    readOnto a closing.texts = .ok (closing.applyTo a) := by
  cases closing with
  | none => exact readOnto.eq_def a []
  | words behind =>
    rw [Closing.texts, readOnto.eq_def]
    simp only [if_pos]
    rfl

theorem Offends.exists_readOnto {message : Text} (h : Offends argv message) (a : Arguments) :
    ∃ e, readOnto a argv = .error e ∧ e.message = message := by
  rw [readOnto.eq_def]
  cases h with
  | @missing option known =>
    refine ⟨.missingDefinition option, ?_, rfl⟩
    simp only [if_neg (plain_of_isDefine known).1, ofText?_of_isDefine known, if_pos known]
  | @invalid option definition rest known uncut =>
    refine ⟨.invalidDefinition definition, ?_, rfl⟩
    simp only [if_neg (plain_of_isDefine known).1, ofText?_of_isDefine known, if_pos known,
      definition?_eq_none_iff.2 uncut]
  | @unknown option rest dashed long plain flagless undefining =>
    refine ⟨.unknownOption option, ?_, rfl⟩
    simp only [if_neg plain, Flag.ofText?_eq_none_iff.2 flagless, if_neg undefining,
      if_pos (isDashed_iff.2 ⟨dashed, long⟩)]

/-- Every row of arguments is a row of items with a closing behind it, or one with an item behind it
that offends. -/
theorem exists_items (argv : List Text) :
    ∃ (items : List Item) (rest : List Text), argv = items.flatMap Item.texts ++ rest ∧
      ((∃ closing : Closing, rest = closing.texts) ∨ ∃ message, Offends rest message) := by
  -- The items are found in the order in which reading takes them, whatever it reads them onto.
  fun_induction readOnto {} argv with
  | case1 a => exact ⟨[], [], rfl, .inl ⟨.none, rfl⟩⟩
  | case2 a rest => exact ⟨[], _, rfl, .inl ⟨.words rest, rfl⟩⟩
  | case3 a x rest hx flag hflag ih =>
    obtain ⟨items, last, rfl, hlast⟩ := ih
    exact ⟨.flag flag x (Flag.ofText?_eq_some_iff.1 hflag) :: items, last, rfl, hlast⟩
  | case4 a x hx hflag hdefine => exact ⟨[], _, rfl, .inr ⟨_, .missing hdefine⟩⟩
  | case5 a x hx hflag hdefine definition rest name value hdefinition ih =>
    obtain ⟨rfl, hcut, hname⟩ := definition?_eq_some hdefinition
    obtain ⟨items, last, rfl, hlast⟩ := ih
    exact ⟨.define x name value hdefine hname hcut :: items, last, rfl, hlast⟩
  | case6 a x hx hflag hdefine definition rest hdefinition =>
    exact ⟨[], _, rfl, .inr ⟨_, .invalid hdefine (definition?_eq_none_iff.1 hdefinition)⟩⟩
  | case7 a x rest hx hflag hdefine hdashed =>
    obtain ⟨hhead, hlong⟩ := isDashed_iff.1 hdashed
    have hflagless := Flag.ofText?_eq_none_iff.1 hflag
    exact ⟨[], _, rfl, .inr ⟨_, .unknown hhead hlong hx hflagless hdefine⟩⟩
  | case8 a x rest hx hflag hdefine hdashed ih =>
    obtain ⟨items, last, rfl, hlast⟩ := ih
    exact ⟨.word x (not_isDashed_iff.1 hdashed) :: items, last, rfl, hlast⟩

def raised (a : Arguments) : Flag → Bool
  | .help => a.help
  | .preserveQuotes => a.preserveQuotes
  | .json => a.json
  | .noEnv => !a.useEnv
  | .verbose => a.verbose

theorem ext_of_raised (hraised : ∀ flag, a.raised flag = b.raised flag)
    (hdefines : a.defines = b.defines) (hwords : a.words = b.words) : a = b := by
  have hhelp := hraised .help
  have hquotes := hraised .preserveQuotes
  have hjson := hraised .json
  have henv := hraised .noEnv
  have hverbose := hraised .verbose
  cases a
  cases b
  simp_all [raised]

theorem raised_raise (a : Arguments) (flag other : Flag) :
    (a.raise flag).raised other = (other == flag || a.raised other) := by
  cases flag <;> cases other <;> rfl

theorem foldl_raise (a : Arguments) (flags : List Flag) :
    (∀ flag, (flags.foldl raise a).raised flag = (flags.contains flag || a.raised flag)) ∧
      (flags.foldl raise a).defines = a.defines ∧ (flags.foldl raise a).words = a.words := by
  induction flags generalizing a with
  | nil => exact ⟨fun _ => rfl, rfl, rfl⟩
  | cons flag flags ih =>
    obtain ⟨hraised, hdefines, hwords⟩ := ih (a.raise flag)
    refine ⟨?_, hdefines.trans ?_, hwords.trans ?_⟩
    · intro other
      rw [List.foldl_cons, hraised, raised_raise, List.contains_cons]
      cases flags.contains other <;> simp
    · cases flag <;> rfl
    · cases flag <;> rfl

theorem readOnto_flags {flags : List Text} (h : ∀ x ∈ flags, ∃ flag : Flag, x ∈ flag.spellings)
    (a : Arguments) (rest : List Text) :
    readOnto a (flags ++ rest) = readOnto ((flags.filterMap Flag.ofText?).foldl raise a) rest := by
  induction flags generalizing a with
  | nil => rfl
  | cons x flags ih =>
    obtain ⟨⟨flag, hx⟩, hflags⟩ := List.forall_mem_cons.1 h
    have hflag := Flag.ofText?_eq_some_iff.2 hx
    rw [List.cons_append, readOnto_flag hflag, ih hflags, List.filterMap_cons_some hflag]
    rfl

/-- The names that a definition can introduce. -/
structure Definable (name : Text) : Prop where
  named : name ≠ []
  cut : Text.equals ∉ name
  free : name ≠ Table.reserved

def definitions (l : List (Text × Text)) : List Text :=
  l.flatMap fun e => [Text.ofString "-D", e.1 ++ Text.equals :: e.2]

theorem readOnto_definitions {l : List (Text × Text)} (h : ∀ e ∈ l, Definable e.1) (a : Arguments)
    (rest : List Text) :
    readOnto a (definitions l ++ rest) =
      readOnto { a with defines := a.defines.insertAll l } rest := by
  induction l generalizing a with
  | nil => rfl
  | cons e l ih =>
    obtain ⟨he, hl⟩ := List.forall_mem_cons.1 h
    have hdefine : a.defines.define e.1 e.2 = a.defines.insert e.1 e.2 := if_neg he.free
    have hread := @readOnto_define a (definitions l ++ rest) e.1 e.2 (Text.ofString "-D")
      (by decide) he.named he.cut
    rw [hdefine, ih hl] at hread
    exact hread

theorem definable_of_item {item : Item} (h : ∀ e ∈ a.defines.entries, Definable e.1) :
    ∀ e ∈ (item.applyTo a).defines.entries, Definable e.1 := by
  cases item with
  | flag flag spelling known => cases flag <;> exact h
  | word t plain => exact h
  | define option name value known named cut =>
    intro e he
    change e ∈ (a.defines.define name value).entries at he
    unfold Table.define at he
    split_ifs at he with hreserved
    · exact h e he
    · rcases Table.mem_insertEntry he with heq | he
      · exact heq ▸ ⟨named, cut, hreserved⟩
      · exact h e he

theorem definable_of_items {items : List Item} (h : ∀ e ∈ a.defines.entries, Definable e.1) :
    ∀ e ∈ (items.foldl Item.applyTo a).defines.entries, Definable e.1 := by
  induction items generalizing a with
  | nil => exact h
  | cons item items ih => exact ih (definable_of_item h)

theorem read_items (items : List Item) (closing : Closing) :
    read (items.flatMap Item.texts ++ closing.texts) =
      .ok (closing.applyTo (items.foldl Item.applyTo {})) := by
  rw [read, readOnto_items, readOnto_closing]

theorem Offends.exists_read {message : Text} (h : Offends rest message) (items : List Item) :
    ∃ e, read (items.flatMap Item.texts ++ rest) = .error e ∧ e.message = message := by
  rw [read, readOnto_items]
  exact h.exists_readOnto _

/-- Arguments that are accepted are items and a closing, and ask for what these ask for. -/
theorem exists_closing_of_read (h : read argv = .ok a) :
    ∃ (items : List Item) (closing : Closing),
      argv = items.flatMap Item.texts ++ closing.texts ∧
        a = closing.applyTo (items.foldl Item.applyTo {}) := by
  obtain ⟨items, rest, rfl, ⟨closing, rfl⟩ | ⟨message, hoffends⟩⟩ := exists_items argv
  · rw [read_items] at h
    exact ⟨items, closing, rfl, (Except.ok.inj h).symm⟩
  · obtain ⟨e, he, -⟩ := hoffends.exists_read items
    rw [he] at h
    cases h

theorem definable_of_read (h : read argv = .ok a) : ∀ e ∈ a.defines.entries, Definable e.1 := by
  obtain ⟨items, closing, -, rfl⟩ := exists_closing_of_read h
  have hitems := @definable_of_items {} items nofun
  cases closing <;> exact hitems

/-- Arguments spell the flags that are raised, and no others, in whatever order and way. -/
structure SpellsFlags (a : Arguments) (flags : List Text) : Prop where
  known : ∀ x ∈ flags, ∃ flag : Flag, x ∈ flag.spellings
  raised_iff : ∀ flag, a.raised flag ↔ ∃ x ∈ flags, x ∈ flag.spellings

theorem read_canonical {flags : List Text} (hflags : a.SpellsFlags flags)
    (hnames : ∀ e ∈ a.defines.entries, Definable e.1) :
    read (flags ++ definitions a.defines.entries ++ separator :: a.words) = .ok a := by
  obtain ⟨hraised, hdefines, hwords⟩ := foldl_raise {} (flags.filterMap Flag.ofText?)
  rw [read, List.append_assoc, readOnto_flags hflags.known, readOnto_definitions hnames]
  refine (readOnto_closing _ (.words a.words)).trans (congrArg Except.ok (ext_of_raised ?_ ?_ ?_))
  · intro flag
    have hnone : ({} : Arguments).raised flag = false := by cases flag <;> rfl
    have hflag : (flags.filterMap Flag.ofText?).contains flag = a.raised flag := by
      rw [Bool.eq_iff_iff, hflags.raised_iff, List.contains_iff_mem, List.mem_filterMap]
      simp only [Flag.ofText?_eq_some_iff]
    rw [← hflag, ← Bool.or_false (List.contains _ flag), ← hnone, ← hraised]
    cases flag <;> rfl
  · change ((flags.filterMap Flag.ofText?).foldl raise {}).defines.insertAll _ = _
    rw [hdefines]
    exact a.defines.ofList_entries
  · change ((flags.filterMap Flag.ofText?).foldl raise {}).words ++ a.words = a.words
    rw [hwords]
    rfl

theorem exists_spellsFlags (a : Arguments) : ∃ flags, a.SpellsFlags flags := by
  refine ⟨(Flag.all.filter a.raised).flatMap Flag.spellings, ?_, ?_⟩
  · intro x hx
    obtain ⟨flag, -, hflag⟩ := List.mem_flatMap.1 hx
    exact ⟨flag, hflag⟩
  · intro flag
    constructor
    · intro hraised
      obtain ⟨x, hx⟩ : ∃ x, x ∈ flag.spellings := by cases flag <;> exact ⟨_, List.mem_cons_self⟩
      have hmem := List.mem_filter.2 ⟨flag.mem_all, hraised⟩
      exact ⟨x, List.mem_flatMap.2 ⟨flag, hmem, hx⟩, hx⟩
    · rintro ⟨x, hx, hflag⟩
      obtain ⟨other, hother, hspelled⟩ := List.mem_flatMap.1 hx
      obtain rfl : other = flag := by
        have hsame := (Flag.ofText?_eq_some_iff.2 hspelled).symm.trans
          (Flag.ofText?_eq_some_iff.2 hflag)
        exact Option.some.inj hsame
      exact (List.mem_filter.1 hother).2

/-- Arguments are accepted exactly if they are items, each a flag, a definition or a word, with
nothing behind them or a separator and any words; otherwise the message names the first item that
offends. What is accepted asks for what its items and its closing ask for, in order. If it is
written anew, as the flags that are raised, the definitions in listing order, a separator and the
words, it asks for exactly the same. -/
theorem read_items_and_canonical_form (argv : List Text) :
    ((∃ a, read argv = .ok a) ↔ ∃ (items : List Item) (closing : Closing),
      argv = items.flatMap Item.texts ++ closing.texts) ∧
    (∀ message, (∃ e, read argv = .error e ∧ e.message = message) ↔
      ∃ (items : List Item) (rest : List Text),
        argv = items.flatMap Item.texts ++ rest ∧ Offends rest message) ∧
    (∀ (items : List Item) (closing : Closing),
      argv = items.flatMap Item.texts ++ closing.texts →
        read argv = .ok (closing.applyTo (items.foldl Item.applyTo {}))) ∧
    ∀ a, read argv = .ok a → (∃ flags, a.SpellsFlags flags) ∧
      ∀ flags, a.SpellsFlags flags →
        read (flags ++ definitions a.defines.entries ++ separator :: a.words) = .ok a := by
  refine ⟨⟨?_, ?_⟩, fun message => ⟨?_, ?_⟩, ?_, ?_⟩
  · rintro ⟨a, h⟩
    obtain ⟨items, closing, hargv, -⟩ := exists_closing_of_read h
    exact ⟨items, closing, hargv⟩
  · rintro ⟨items, closing, rfl⟩
    exact ⟨_, read_items items closing⟩
  · rintro ⟨e, he, rfl⟩
    obtain ⟨items, rest, rfl, ⟨closing, rfl⟩ | ⟨message, hoffends⟩⟩ := exists_items argv
    · rw [read_items] at he
      cases he
    · obtain ⟨e', he', rfl⟩ := hoffends.exists_read items
      rw [he'] at he
      cases he
      exact ⟨items, rest, rfl, hoffends⟩
  · rintro ⟨items, rest, rfl, hoffends⟩
    exact hoffends.exists_read items
  · rintro items closing rfl
    exact read_items items closing
  · intro a h
    exact ⟨a.exists_spellsFlags, fun flags hflags => read_canonical hflags (definable_of_read h)⟩

/-- A flag between words and definitions, with names that are listed by number and the reserved one,
and a flag behind the separator that is a word. -/
def mixed : List Text :=
  ["x", "-D", "2=b=c", "-v", "--define", "10=", "-D", "1=a", "-D", "__proto__=z", "--", "-q"]

theorem read_mixed_canonical_form :
    ∃ a, read mixed = .ok a ∧
      read ["--verbose", "-D", "1=a", "-D", "2=b=c", "-D", "10=", "--", "x", "-q"] = .ok a := by
  have hfields : (read mixed).toOption.map (fun a =>
      (Flag.all.map a.raised, a.defines.entries, a.words)) =
        some ([false, false, false, false, true],
          ([("1", "a"), ("2", "b=c"), ("10", "")] : List (Text × Text)),
          (["x", "-q"] : List Text)) := by
    decide +kernel
  cases hread : read mixed with
  | error e =>
    rw [hread] at hfields
    cases hfields
  | ok a =>
    rw [hread] at hfields
    obtain ⟨hraised, hrest⟩ := Prod.mk.inj (Option.some.inj hfields)
    obtain ⟨hdefines, hwords⟩ := Prod.mk.inj hrest
    have hflags : a.SpellsFlags ["--verbose"] := by
      refine ⟨by simpa using ⟨.verbose, List.mem_cons_self⟩, ?_⟩
      intro flag
      have hflag : a.raised flag = decide (flag = .verbose) := by
        cases flag <;> simp_all [Flag.all]
      rw [hflag]
      cases flag <;> decide
    have hcanonical := ((read_items_and_canonical_form mixed).2.2.2 a hread).2 _ hflags
    rw [hdefines, hwords] at hcanonical
    exact ⟨a, rfl, hcanonical⟩

end Arguments

end CommandText
