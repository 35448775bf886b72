import CommandText.Invocation.Arguments
import CommandText.Proofs.Element

/-!
# What the arguments define

`Arguments.Reads` lists the ways in which a row of arguments can be read, one rule for each kind of
argument; whatever the program reads is read by these rules. From them follows what is kept of a row
that could be read: for each name the value of its last definition, and whether the environment was
ruled out. Both are said about positions in the row, so they do not depend on how it is read.
-/

namespace CommandText

namespace Arguments

variable {a b : Arguments} {argv rest : List Text} {x name value : Text} {i : Nat}

/-- The first arguments make the second ones when a row of arguments is read onto them. -/
inductive Reads : Arguments → List Text → Arguments → Prop where
  | done (a : Arguments) : Reads a [] a
  | words (a : Arguments) (rest : List Text) :
      Reads a (separator :: rest) { a with words := a.words ++ rest }
  | flag {a b : Arguments} {arg : Text} {flag : Flag} {rest : List Text}
      (known : Flag.ofText? arg = some flag) (tail : Reads (a.raise flag) rest b) :
      Reads a (arg :: rest) b
  | define {a b : Arguments} {option name value : Text} {rest : List Text}
      (known : isDefine option) (named : name ≠ []) (cut : Text.equals ∉ name)
      (tail : Reads { a with defines := a.defines.define name value } rest b) :
      Reads a (option :: (name ++ Text.equals :: value) :: rest) b
  | word {a b : Arguments} {arg : Text} {rest : List Text} (plain : arg ≠ separator)
      (unknown : Flag.ofText? arg = none) (undefining : ¬isDefine arg)
      (tail : Reads { a with words := a.words ++ [arg] } rest b) : Reads a (arg :: rest) b

theorem definition?_eq_some {t : Text} (h : definition? t = some (name, value)) :
    t = name ++ Text.equals :: value ∧ Text.equals ∉ name ∧ name ≠ [] := by
  unfold definition? at h
  split at h
  · next n v hcut =>
    split_ifs at h with hname
    cases h
    obtain ⟨ht, hn⟩ := Text.cut?_eq_some hcut
    exact ⟨ht, hn, hname⟩
  · cases h

theorem reads_of_readOnto (h : readOnto a argv = .ok b) : Reads a argv b := by
  fun_induction readOnto a argv with
  | case1 a' =>
    cases h
    exact .done b
  | case2 a' rest =>
    cases h
    exact .words a' rest
  | case3 a' arg rest harg flag hflag ih => exact .flag hflag (ih h)
  | case4 => cases h
  | case5 a' arg harg hflag hdefine definition rest name value hdefinition ih =>
    obtain ⟨rfl, hcut, hname⟩ := definition?_eq_some hdefinition
    exact .define hdefine hname hcut (ih h)
  | case6 => cases h
  | case7 => cases h
  | case8 a' arg rest harg hflag hdefine hdashed ih => exact .word harg hflag hdefine (ih h)

/-- A definition stands at a position: an option that takes a definition, with the name, an equals
sign and the value behind it, and no separator before. -/
structure DefinesAt (argv : List Text) (i : Nat) (name value : Text) : Prop where
  option : argv[i]? = some (Text.ofString "-D") ∨ argv[i]? = some (Text.ofString "--define")
  operand : argv[i + 1]? = some (name ++ Text.equals :: value)
  cut : Text.equals ∉ name
  before : separator ∉ argv.take i

/-- The value of a name in the last definition of that name. -/
def LastDefinition (argv : List Text) (name value : Text) : Prop :=
  ∃ i, DefinesAt argv i name value ∧ ∀ j other, i < j → ¬DefinesAt argv j name other

theorem isDefine_iff : isDefine x ↔ x = "-D" ∨ x = "--define" := by
  simp [isDefine, or_comm]

theorem definesAt_zero :
    DefinesAt (x :: argv) 0 name value ↔
      isDefine x ∧ argv[0]? = some (name ++ Text.equals :: value) ∧ Text.equals ∉ name := by
  rw [isDefine_iff]
  constructor
  · rintro ⟨hoption, hoperand, hcut, -⟩
    exact ⟨by simpa using hoption, by simpa using hoperand, hcut⟩
  · rintro ⟨hoption, hoperand, hcut⟩
    exact ⟨by simpa using hoption, by simpa using hoperand, hcut, by simp⟩

theorem definesAt_succ :
    DefinesAt (x :: argv) (i + 1) name value ↔ x ≠ separator ∧ DefinesAt argv i name value := by
  constructor
  · rintro ⟨hoption, hoperand, hcut, hbefore⟩
    rw [List.take_succ_cons, List.mem_cons, not_or] at hbefore
    exact ⟨Ne.symm hbefore.1, hoption, hoperand, hcut, hbefore.2⟩
  · rintro ⟨hx, hoption, hoperand, hcut, hbefore⟩
    refine ⟨hoption, hoperand, hcut, ?_⟩
    rw [List.take_succ_cons, List.mem_cons, not_or]
    exact ⟨Ne.symm hx, hbefore⟩

theorem not_definesAt_nil : ¬DefinesAt [] i name value := by
  intro h
  simpa using h.operand

theorem not_definesAt_separator : ¬DefinesAt (separator :: rest) i name value := by
  cases i with
  | zero =>
    intro h
    exact absurd (definesAt_zero.1 h).1 (by decide)
  | succ i =>
    intro h
    exact (definesAt_succ.1 h).1 rfl

theorem lastDefinition_unique {value' : Text} (h : LastDefinition argv name value)
    (h' : LastDefinition argv name value') : value = value' := by
  obtain ⟨i, hi, hlast⟩ := h
  obtain ⟨j, hj, hlast'⟩ := h'
  rcases Nat.lt_trichotomy i j with hlt | rfl | hlt
  · exact absurd hj (hlast j value' hlt)
  · have hoperand := Option.some.inj (hi.operand.symm.trans hj.operand)
    exact (List.cons.inj (List.append_cancel_left hoperand)).2
  · exact absurd hi (hlast' i value hlt)

theorem exists_lastDefinition (h : DefinesAt argv i name value) :
    ∃ last, LastDefinition argv name last := by
  induction hn : argv.length - i using Nat.strong_induction_on generalizing i value with
  | _ n ih =>
    by_cases hlater : ∃ j other, i < j ∧ DefinesAt argv j name other
    · obtain ⟨j, other, hlt, hj⟩ := hlater
      have hlength : j + 1 < argv.length := (List.getElem?_eq_some_iff.1 hj.operand).1
      exact ih _ (by omega) hj rfl
    · refine ⟨value, i, h, ?_⟩
      intro j other hlt hj
      exact hlater ⟨j, other, hlt, hj⟩

theorem definesAt_cons_iff (hplain : x ≠ separator) (hx : ¬isDefine x) :
    DefinesAt (x :: argv) i name value ↔ ∃ k, i = k + 1 ∧ DefinesAt argv k name value := by
  cases i with
  | zero => simp [definesAt_zero, hx]
  | succ i => simp [definesAt_succ, hplain]

theorem lastDefinition_cons_iff (hplain : x ≠ separator) (hx : ¬isDefine x) :
    LastDefinition (x :: argv) name value ↔ LastDefinition argv name value := by
  constructor
  · rintro ⟨i, hi, hlast⟩
    obtain ⟨k, rfl, hk⟩ := (definesAt_cons_iff hplain hx).1 hi
    refine ⟨k, hk, ?_⟩
    intro j other hlt hj
    exact hlast (j + 1) other (by omega) ((definesAt_cons_iff hplain hx).2 ⟨j, rfl, hj⟩)
  · rintro ⟨i, hi, hlast⟩
    refine ⟨i + 1, (definesAt_cons_iff hplain hx).2 ⟨i, rfl, hi⟩, ?_⟩
    intro j other hlt hj
    obtain ⟨k, rfl, hk⟩ := (definesAt_cons_iff hplain hx).1 hj
    exact hlast k other (by omega) hk

def noEnv : Text := "--no-env"

theorem ofText?_eq_noEnv_iff : Flag.ofText? x = some .noEnv ↔ x = noEnv := by
  constructor
  · intro h
    unfold Flag.ofText? at h
    split_ifs at h with h₁ h₂ h₃ <;> cases h
    exact h₃
  · rintro rfl
    rfl

theorem useEnv_raise (a : Arguments) (flag : Flag) :
    (a.raise flag).useEnv = true ↔ a.useEnv = true ∧ flag ≠ .noEnv := by
  cases flag <;> simp [raise]

theorem plain_of_flag {flag : Flag} (h : Flag.ofText? x = some flag) :
    x ≠ separator ∧ ¬isDefine x := by
  constructor
  · rintro rfl
    cases h
  · intro hx
    rcases isDefine_iff.1 hx with rfl | rfl <;> cases h

theorem plain_operand (name value : Text) :
    name ++ Text.equals :: value ≠ separator ∧ ¬isDefine (name ++ Text.equals :: value) ∧
      name ++ Text.equals :: value ≠ noEnv := by
  have hmem : Text.equals ∈ name ++ Text.equals :: value := by simp
  refine ⟨ne_of_mem_of_not_mem' hmem (by decide), ?_, ne_of_mem_of_not_mem' hmem (by decide)⟩
  intro h
  rcases isDefine_iff.1 h with h | h
  · exact ne_of_mem_of_not_mem' hmem (by decide) h
  · exact ne_of_mem_of_not_mem' hmem (by decide) h

theorem plain_of_isDefine (h : isDefine x) : x ≠ separator ∧ x ≠ noEnv := by
  rcases isDefine_iff.1 h with rfl | rfl <;> decide

theorem definesAt_define_iff {option operand : Text} (hoption : isDefine option)
    (hplain : operand ≠ separator) (hoperand : ¬isDefine operand) :
    DefinesAt (option :: operand :: rest) i name value ↔
      (i = 0 ∧ operand = name ++ Text.equals :: value ∧ Text.equals ∉ name) ∨
        ∃ k, i = k + 2 ∧ DefinesAt rest k name value := by
  cases i with
  | zero => simp [definesAt_zero, hoption]
  | succ i =>
    rw [definesAt_succ, definesAt_cons_iff hplain hoperand]
    simp [(plain_of_isDefine hoption).1]

theorem lastDefinition_define_iff {option name' value' : Text} (hoption : isDefine option)
    (hcut : Text.equals ∉ name') :
    LastDefinition (option :: (name' ++ Text.equals :: value') :: rest) name value ↔
      LastDefinition rest name value ∨
        name = name' ∧ value = value' ∧ ∀ other, ¬LastDefinition rest name other := by
  obtain ⟨hplain, hoperand, -⟩ := plain_operand name' value'
  have hiff := fun i value => @definesAt_define_iff rest name value i _ _ hoption hplain hoperand
  constructor
  · rintro ⟨i, hi, hlast⟩
    rcases (hiff i value).1 hi with ⟨rfl, heq, hname⟩ | ⟨k, rfl, hk⟩
    · obtain ⟨rfl, rfl⟩ : name' = name ∧ value' = value := by
        have hboth := congrArg (Text.cut? Text.equals) heq
        rw [Text.cut?_append hcut, Text.cut?_append hname] at hboth
        simpa using hboth
      refine .inr ⟨rfl, rfl, ?_⟩
      rintro other ⟨k, hk, -⟩
      exact hlast (k + 2) other (by omega) ((hiff _ _).2 (.inr ⟨k, rfl, hk⟩))
    · refine .inl ⟨k, hk, ?_⟩
      intro j other hlt hj
      exact hlast (j + 2) other (by omega) ((hiff _ _).2 (.inr ⟨j, rfl, hj⟩))
  · rintro (⟨i, hi, hlast⟩ | ⟨rfl, rfl, hnone⟩)
    · refine ⟨i + 2, (hiff _ _).2 (.inr ⟨i, rfl, hi⟩), ?_⟩
      intro j other hlt hj
      rcases (hiff j other).1 hj with ⟨rfl, -⟩ | ⟨k, rfl, hk⟩
      · omega
      · exact hlast k other (by omega) hk
    · refine ⟨0, (hiff _ _).2 (.inl ⟨rfl, rfl, hcut⟩), ?_⟩
      intro j other hlt hj
      rcases (hiff j other).1 hj with ⟨rfl, -⟩ | ⟨k, rfl, hk⟩
      · omega
      · obtain ⟨last, hlast⟩ := exists_lastDefinition hk
        exact hnone last hlast

/-- A name that can be defined takes the value of its last definition, and what the arguments do not
define stays. -/
theorem Reads.get?_defines (h : Reads a argv b) (name : Text) :
    (∃ value, name ≠ Table.reserved ∧ LastDefinition argv name value ∧
      b.defines.get? name = some value) ∨
    (∀ value, name ≠ Table.reserved → ¬LastDefinition argv name value) ∧
      b.defines.get? name = a.defines.get? name := by
  induction h with
  | done a =>
    refine .inr ⟨?_, rfl⟩
    rintro value - ⟨i, hi, -⟩
    exact not_definesAt_nil hi
  | words a rest =>
    refine .inr ⟨?_, rfl⟩
    rintro value - ⟨i, hi, -⟩
    exact not_definesAt_separator hi
  | @flag a b arg flag rest known tail ih =>
    obtain ⟨hplain, hdefine⟩ := plain_of_flag known
    simp only [lastDefinition_cons_iff hplain hdefine]
    cases flag <;> exact ih
  | word plain unknown undefining tail ih =>
    simp only [lastDefinition_cons_iff plain undefining]
    exact ih
  | @define a b option name' value' rest known named cut tail ih =>
    simp only [lastDefinition_define_iff known cut]
    rcases ih with ⟨value, hname, hlast, hget⟩ | ⟨hnone, hget⟩
    · exact .inl ⟨value, hname, .inl hlast, hget⟩
    · rw [Table.get?_define] at hget
      split_ifs at hget with hthis
      · obtain ⟨rfl, hname⟩ := hthis
        refine .inl ⟨value', hname, .inr ⟨rfl, rfl, ?_⟩, hget⟩
        intro other hother
        exact hnone other hname hother
      · refine .inr ⟨?_, hget⟩
        rintro value hname (hlast | ⟨rfl, -, -⟩)
        · exact hnone value hname hlast
        · exact hthis ⟨rfl, hname⟩

theorem Reads.get?_defines_nil (h : Reads a argv b) : b.defines.get? [] = a.defines.get? [] := by
  induction h with
  | done a => rfl
  | words a rest => rfl
  | @flag a b arg flag rest known tail ih => cases flag <;> exact ih
  | word plain unknown undefining tail ih => exact ih
  | define known named cut tail ih =>
    rw [ih, Table.get?_define, if_neg]
    rintro ⟨hname, -⟩
    exact named hname.symm

/-- The arguments that are read as options, definitions and words: those before the separator. -/
def beforeSeparator (argv : List Text) : List Text := argv.takeWhile (· ≠ separator)

theorem beforeSeparator_cons (h : x ≠ separator) :
    beforeSeparator (x :: argv) = x :: beforeSeparator argv := by
  simp [beforeSeparator, h]

theorem Reads.useEnv_iff (h : Reads a argv b) :
    b.useEnv = true ↔ a.useEnv = true ∧ noEnv ∉ beforeSeparator argv := by
  induction h with
  | done a => simp [beforeSeparator]
  | words a rest => simp [beforeSeparator]
  | @flag a b arg flag rest known tail ih =>
    have hflag : flag ≠ .noEnv ↔ noEnv ≠ arg := by
      rw [ne_comm, Ne, ← Option.some_inj, ← known, eq_comm, ofText?_eq_noEnv_iff, eq_comm]
    rw [ih, useEnv_raise, beforeSeparator_cons (plain_of_flag known).1, hflag, List.mem_cons,
      not_or, and_assoc]
  | @word a b arg rest plain unknown undefining tail ih =>
    have hword : noEnv ≠ arg := by
      rintro rfl
      cases unknown
    rw [ih, beforeSeparator_cons plain, List.mem_cons, not_or, and_iff_right hword]
  | @define a b option name' value' rest known named cut tail ih =>
    obtain ⟨hplain, -, hoperand⟩ := plain_operand name' value'
    obtain ⟨hoption, hne⟩ := plain_of_isDefine known
    rw [ih, beforeSeparator_cons hoption, beforeSeparator_cons hplain]
    simp [hne.symm, hoperand.symm]

theorem get?_defines_iff (h : read argv = .ok a) :
    a.defines.get? name = some value ↔
      name ≠ Table.reserved ∧ LastDefinition argv name value := by
  rcases (reads_of_readOnto h).get?_defines name with ⟨last, hname, hlast, hget⟩ | ⟨hnone, hget⟩
  · rw [hget]
    constructor
    · intro hvalue
      exact ⟨hname, Option.some.inj hvalue ▸ hlast⟩
    · rintro ⟨-, hvalue⟩
      rw [lastDefinition_unique hlast hvalue]
  · rw [hget]
    constructor
    · intro hvalue
      cases hvalue
    · rintro ⟨hname, hvalue⟩
      exact absurd hvalue (hnone value hname)

theorem get?_defines_nil (h : read argv = .ok a) : a.defines.get? [] = none :=
  (reads_of_readOnto h).get?_defines_nil

theorem useEnv_iff (h : read argv = .ok a) : a.useEnv = true ↔ noEnv ∉ beforeSeparator argv := by
  rw [(reads_of_readOnto h).useEnv_iff]
  exact and_iff_right rfl

end Arguments

end CommandText
