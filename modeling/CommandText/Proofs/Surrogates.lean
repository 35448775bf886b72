import CommandText.Proofs.Derivation

/-!
# Surrogate pairs stay whole

Parsers take single units, so the two halves of a pair are taken in two steps, and a piece that is
still being put together may end between them. What is finished never does: names, tokens and the
text before a rejection are cut out at percent signs, spaces and quotes, none of which is half a
pair. `Text.isPaired_append_cons` is the reason, and the rest follows the elements and the rules by
which tokens are derived from them. Which names are looked up is said by `Peg.RunIn`, which covers
every run of a parser in the course of another, also one whose result is thrown away.
-/

namespace CommandText

namespace Text

def isHalf (u : UInt16) : Bool := isHigh u || isLow u

theorem isHalf_of_isHigh {u : UInt16} (h : isHigh u) : isHalf u := by
  simp [isHalf, h]

theorem isHalf_of_isLow {u : UInt16} (h : isLow u) : isHalf u := by
  simp [isHalf, h]

theorem le_of_isHalf {u : UInt16} (h : isHalf u) : 0xD800 ≤ u := by
  simp only [isHalf, isHigh, isLow, Bool.or_eq_true, Bool.and_eq_true, decide_eq_true_eq] at h
  rcases h with ⟨hhigh, -⟩ | ⟨hlow, -⟩
  · exact hhigh
  · exact UInt16.le_trans (by decide) hlow

/-- A position lies between the two halves of a pair. -/
def CutsPair (t : Text) (i : Nat) : Prop :=
  ∃ before high low behind, t = before ++ high :: low :: behind ∧ isHigh high ∧ isLow low ∧
    i = before.length + 1

theorem isPaired_cons_of_not_isHalf {u : UInt16} (h : ¬isHalf u) (t : Text) :
    isPaired (u :: t) = isPaired t := by
  simp only [isHalf, Bool.or_eq_true, not_or, Bool.not_eq_true] at h
  cases t <;> simp [isPaired, h]

theorem isPaired_of_high_low {u v : UInt16} (hu : isHigh u) (hv : isLow v) (t : Text) :
    isPaired (u :: v :: t) = isPaired t := by
  simp [isPaired, hu, hv]

theorem isPaired_cons_cases {u : UInt16} {t : Text} (h : isPaired (u :: t)) :
    ¬isHalf u ∧ isPaired t ∨
      isHigh u ∧ ∃ v rest, t = v :: rest ∧ isLow v ∧ isPaired rest := by
  cases t with
  | nil =>
    left
    simpa [isPaired, isHalf] using h
  | cons v rest =>
    rw [isPaired] at h
    split_ifs at h with hp
    · rw [Bool.and_eq_true] at hp
      exact .inr ⟨hp.1, v, rest, rfl, hp.2, h⟩
    · left
      simpa [isHalf, and_assoc] using h

theorem isPaired_append {a b : Text} (ha : isPaired a) (hb : isPaired b) : isPaired (a ++ b) := by
  fun_induction isPaired a with
  | case1 => exact hb
  | case2 u =>
    have hu : ¬isHalf u := by simpa [isHalf] using ha
    rwa [List.singleton_append, isPaired_cons_of_not_isHalf hu]
  | case3 u v rest hp ih =>
    rw [Bool.and_eq_true] at hp
    rw [List.cons_append, List.cons_append, isPaired_of_high_low hp.1 hp.2]
    exact ih ha
  | case4 u v rest hp ih =>
    rw [Bool.and_eq_true] at ha
    have hu : ¬isHalf u := by simpa [isHalf] using ha.1
    rw [List.cons_append, isPaired_cons_of_not_isHalf hu]
    exact ih ha.2

/-- A unit that is no half of a pair keeps what is before and what is behind it apart. -/
theorem isPaired_append_cons {u : UInt16} (hu : ¬isHalf u) {a b : Text}
    (h : isPaired (a ++ u :: b)) : isPaired a ∧ isPaired b := by
  induction hn : a.length using Nat.strong_induction_on generalizing a with
  | _ n ih =>
    cases a with
    | nil => exact ⟨rfl, by rwa [List.nil_append, isPaired_cons_of_not_isHalf hu] at h⟩
    | cons w a =>
      rw [List.length_cons] at hn
      rcases isPaired_cons_cases h with ⟨hw, hrest⟩ | ⟨hw, v, rest, hv, hlow, hrest⟩
      · rw [isPaired_cons_of_not_isHalf hw]
        exact ih a.length (by omega) hrest rfl
      · cases a with
        | nil =>
          obtain ⟨rfl, -⟩ := List.cons.inj hv
          exact absurd (isHalf_of_isLow hlow) hu
        | cons v' a =>
          obtain ⟨rfl, rfl⟩ := List.cons.inj hv
          rw [List.length_cons] at hn
          rw [isPaired_of_high_low hw hlow]
          exact ih a.length (by omega) hrest rfl

theorem not_isHalf_percent : ¬isHalf percent := by decide

theorem not_isHalf_quote : ¬isHalf quote := by decide

theorem not_isHalf_space : ¬isHalf space := by decide

theorem isPaired_of_enclosed {u v : UInt16} {before t behind : Text} (hu : ¬isHalf u)
    (hv : ¬isHalf v) (h : isPaired (before ++ u :: (t ++ v :: behind))) : isPaired t :=
  (isPaired_append_cons hv (isPaired_append_cons hu h).2).1

end Text

namespace Cursor

theorem Behind.ahead_suffix {c d : Cursor} (h : c.Behind d) : d.ahead <:+ c.ahead := by
  obtain ⟨k, hk⟩ := Nat.exists_eq_add_of_le h.start
  have hd : d.ahead = c.ahead.drop k := by
    rw [d.ahead_eq, c.ahead_eq, h.text, h.stop, hk, List.drop_take, List.drop_drop, Nat.sub_sub]
  rw [hd]
  exact List.drop_suffix k c.ahead

end Cursor

namespace Peg

/-- A repetition of a parser that starts at the first cursor runs it at the second. -/
inductive Reaches {α : Type} (p : Peg α) : Cursor → Cursor → Prop
  | refl (c : Cursor) : Reaches p c c
  | step {c rest d : Cursor} {v : α} (hp : p.parse c = .success v rest)
      (hlt : rest.remaining < c.remaining) (h : Reaches p rest d) : Reaches p c d

/-- The parser `q` is run at `d` in the course of a run of a parser at a cursor. -/
inductive RunIn {γ : Type} (q : Peg γ) (d : Cursor) : {α : Type} → Peg α → Cursor → Prop
  | self : RunIn q d q d
  | seqFirst {α β : Type} {p : Peg α} {p' : Peg β} {c : Cursor} (h : RunIn q d p c) :
      RunIn q d (.seq p p') c
  | seqSecond {α β : Type} {p : Peg α} {p' : Peg β} {c rest : Cursor} {v : α}
      (hp : p.parse c = .success v rest) (h : RunIn q d p' rest) : RunIn q d (.seq p p') c
  | altFirst {α : Type} {p p' : Peg α} {c : Cursor} (h : RunIn q d p c) :
      RunIn q d (.alt p p') c
  | altSecond {α : Type} {p p' : Peg α} {c : Cursor} {pos : Nat} {expected : Text}
      (hp : p.parse c = .failure pos expected) (h : RunIn q d p' c) : RunIn q d (.alt p p') c
  | excluded {α β : Type} {p : Peg α} {excluded : Peg β} {shown : β → Text} {c : Cursor}
      (h : RunIn q d excluded c) : RunIn q d (.except p excluded shown) c
  | except {α β : Type} {p : Peg α} {excluded : Peg β} {shown : β → Text} {c : Cursor} {pos : Nat}
      {expected : Text} (hp : excluded.parse c = .failure pos expected) (h : RunIn q d p c) :
      RunIn q d (.except p excluded shown) c
  | many {α : Type} {p : Peg α} {c c' : Cursor} (hc : Reaches p c c') (h : RunIn q d p c') :
      RunIn q d (.many p) c
  | many1 {α : Type} {p : Peg α} {c c' : Cursor} (hc : Reaches p c c') (h : RunIn q d p c') :
      RunIn q d (.many1 p) c
  | map {α β : Type} {f : α → β} {p : Peg α} {c : Cursor} (h : RunIn q d p c) :
      RunIn q d (.map f p) c

theorem Reaches.behind {α : Type} {p : Peg α} {c d : Cursor} (h : Reaches p c d) : c.Behind d := by
  induction h with
  | refl c => exact .refl c
  | step hp _ _ ih => exact (behind_of_parse hp).trans ih

theorem RunIn.behind {α γ : Type} {q : Peg γ} {d : Cursor} {p : Peg α} {c : Cursor}
    (h : RunIn q d p c) : c.Behind d := by
  induction h with
  | self => exact .refl d
  | seqFirst _ ih => exact ih
  | seqSecond hp _ ih => exact (behind_of_parse hp).trans ih
  | altFirst _ ih => exact ih
  | altSecond _ _ ih => exact ih
  | excluded _ ih => exact ih
  | except _ _ ih => exact ih
  | many hc _ ih => exact hc.behind.trans ih
  | many1 hc _ ih => exact hc.behind.trans ih
  | map _ ih => exact ih

end Peg

namespace Grammar

/-- A reference is run somewhere in the course of splitting a text and finds a name, which is then
looked up. -/
def LooksUp (lookup : Lookup) (preserveQuotes : Bool) (text sought : Text) : Prop :=
  ∃ c rest,
    (reference lookup).RunIn c (terms (special lookup) preserveQuotes) (Cursor.ofText text) ∧
      name.parse c = .success sought rest

theorem eq_of_read_name {t sought rest : Text} (h : name.read t = some (sought, rest)) :
    t = Text.percent :: (sought ++ Text.percent :: rest) := by
  rw [read_name] at h
  obtain ⟨⟨u, t'⟩, hu, hcut⟩ := Option.bind_eq_some_iff.1 h
  cases t with
  | nil => cases hu
  | cons v t =>
    rw [percent, Peg.read_unit_cons] at hu
    split_ifs at hu with hv
    obtain ⟨rfl, rfl⟩ : v = u ∧ t = t' := by simpa using hu
    rw [hv, (Text.cut?_eq_some hcut).1]

theorem LooksUp.exists_eq {lookup : Lookup} {preserveQuotes : Bool} {text sought : Text}
    (h : LooksUp lookup preserveQuotes text sought) :
    ∃ before behind,
      text = before ++ Text.percent :: (sought ++ Text.percent :: behind) := by
  obtain ⟨c, rest, hrun, hname⟩ := h
  obtain ⟨before, hbefore⟩ := hrun.behind.ahead_suffix
  have hread := name.found_parse c
  rw [hname] at hread
  refine ⟨before, rest.ahead, ?_⟩
  rw [← eq_of_read_name hread.symm]
  exact hbefore.symm

end Grammar

/-- The value of a name without a lone half has no lone half either. -/
def Lookup.KeepsPairs (lookup : Lookup) : Prop :=
  ∀ name value, Text.isPaired name → lookup name = some value → Text.isPaired value

namespace Element

theorem not_isHalf_of_isPair {u v : UInt16} (h : isPair u v) :
    ¬Text.isHalf u ∧ ¬Text.isHalf v := by
  rcases isPair_iff.1 h with ⟨rfl, rfl⟩ | ⟨rfl, rfl | rfl⟩ <;> decide

theorem isPaired_value_reference {lookup : Lookup} (hlookup : lookup.KeepsPairs) {name : Text}
    (hname : Text.isPaired name) : Text.isPaired ((reference name).value lookup) := by
  cases hvalue : lookup name with
  | some value => simpa [Element.value, hvalue] using hlookup name value hname hvalue
  | none =>
    have hwritten := Text.isPaired_append hname (b := [Text.percent]) rfl
    simpa [Element.value, hvalue, written,
      Text.isPaired_cons_of_not_isHalf Text.not_isHalf_percent] using hwritten

theorem exists_cons_of_isHalf {es : List Element} {v : UInt16} {rest : Text}
    (hpairs : ∀ u w, pair u w ∈ es → isPair u w) (hv : Text.isHalf v)
    (h : es.flatMap written = v :: rest) :
    ∃ es', es = single v :: es' ∧ rest = es'.flatMap written := by
  cases es with
  | nil => cases h
  | cons e es =>
    cases e with
    | reference name =>
      obtain ⟨rfl, -⟩ := List.cons.inj h
      exact absurd hv Text.not_isHalf_percent
    | pair u w =>
      obtain ⟨rfl, -⟩ := List.cons.inj h
      exact absurd hv (not_isHalf_of_isPair (hpairs u w List.mem_cons_self)).1
    | single u =>
      obtain ⟨rfl, rfl⟩ := List.cons.inj h
      exact ⟨es, rfl, rfl⟩

theorem isPaired_flatMap_value {lookup : Lookup} (hlookup : lookup.KeepsPairs) {es : List Element}
    (hpairs : ∀ u v, pair u v ∈ es → isPair u v)
    (h : Text.isPaired (es.flatMap written)) : Text.isPaired (es.flatMap (value lookup)) := by
  induction hn : es.length using Nat.strong_induction_on generalizing es with
  | _ n ih =>
    cases es with
    | nil => rfl
    | cons e es =>
      rw [List.length_cons] at hn
      have hrest : ∀ u v, pair u v ∈ es → isPair u v := by
        intro u v hmem
        exact hpairs u v (List.mem_cons_of_mem e hmem)
      rw [List.flatMap_cons] at h ⊢
      cases e with
      | reference name =>
        have hparts : Text.isPaired name ∧ Text.isPaired (es.flatMap written) := by
          apply Text.isPaired_append_cons Text.not_isHalf_percent
          simpa [written, Text.isPaired_cons_of_not_isHalf Text.not_isHalf_percent] using h
        exact Text.isPaired_append (isPaired_value_reference hlookup hparts.1)
          (ih es.length (by omega) hrest hparts.2 rfl)
      | pair u v =>
        have hu := not_isHalf_of_isPair (hpairs u v List.mem_cons_self)
        have hbehind : Text.isPaired (es.flatMap written) := by
          simpa [written, Text.isPaired_cons_of_not_isHalf hu.1,
            Text.isPaired_cons_of_not_isHalf hu.2] using h
        simpa [Element.value, Text.isPaired_cons_of_not_isHalf hu.2] using
          ih es.length (by omega) hrest hbehind rfl
      | single u =>
        rcases Text.isPaired_cons_cases h with ⟨hu, hbehind⟩ | ⟨hu, v, rest, hv, hlow, hbehind⟩
        · simpa [Element.value, Text.isPaired_cons_of_not_isHalf hu] using
            ih es.length (by omega) hrest hbehind rfl
        · -- The second half is the next element, and both stand for themselves.
          obtain ⟨es', rfl, rfl⟩ := exists_cons_of_isHalf hrest (Text.isHalf_of_isLow hlow) hv
          rw [List.length_cons] at hn
          have hlast : ∀ u v, pair u v ∈ es' → isPair u v := by
            intro u v hmem
            exact hrest u v (List.mem_cons_of_mem _ hmem)
          simpa [Element.value, Text.isPaired_of_high_low hu hlow] using
            ih es'.length (by omega) hlast hbehind rfl

theorem exists_single_of_endsBare {e : Element} (h : endsBare e) :
    ∃ u, e = single u ∧ ¬Text.isHalf u := by
  have he : e = single Text.quote ∨ e = single Text.space := by simpa [endsAt] using h
  rcases he with rfl | rfl
  · exact ⟨Text.quote, rfl, Text.not_isHalf_quote⟩
  · exact ⟨Text.space, rfl, Text.not_isHalf_space⟩

end Element

namespace Token

open Element

/-- Tokens that are derived from a paired text stand for paired texts, if the values of variables
are paired. -/
theorem Derives.isPaired_value {lookup : Lookup} (hlookup : lookup.KeepsPairs)
    (preserveQuotes : Bool) {es : List Element} {tokens : List Token} (h : Derives es tokens)
    (hpairs : ∀ u v, pair u v ∈ es → isPair u v)
    (hes : Text.isPaired (es.flatMap Element.written)) :
    ∀ token ∈ tokens, Text.isPaired (token.value lookup preserveQuotes) := by
  induction h with
  | nil => simp
  | space _ ih =>
    apply ih
    · intro u v hmem
      exact hpairs u v (List.mem_cons_of_mem _ hmem)
    · rwa [← Text.isPaired_cons_of_not_isHalf Text.not_isHalf_space]
  | @quoted parts es tokens _ _ ih =>
    have hcut : Text.isPaired (parts.flatMap Element.written) ∧
        Text.isPaired (es.flatMap Element.written) := by
      apply Text.isPaired_append_cons Text.not_isHalf_quote
      simpa [Element.written, Text.isPaired_cons_of_not_isHalf Text.not_isHalf_quote] using hes
    have hbody : Text.isPaired (parts.flatMap (Element.value lookup)) := by
      refine isPaired_flatMap_value hlookup ?_ hcut.1
      intro u v hmem
      exact hpairs u v (by simp [hmem])
    refine List.forall_mem_cons.2 ⟨?_, ih ?_ hcut.2⟩
    · cases preserveQuotes with
      | false => exact hbody
      | true =>
        have hclosed := Text.isPaired_append hbody (b := [Text.quote]) rfl
        rwa [← Text.isPaired_cons_of_not_isHalf Text.not_isHalf_quote] at hclosed
    · intro u v hmem
      exact hpairs u v (by simp [hmem])
  | @bare first others es tokens _ hend _ ih =>
    have hcut : Text.isPaired ((first :: others).flatMap Element.written) ∧
        Text.isPaired (es.flatMap Element.written) := by
      rw [← List.cons_append, List.flatMap_append] at hes
      cases es with
      | nil => exact ⟨by simpa using hes, rfl⟩
      | cons e es =>
        obtain ⟨u, rfl, hu⟩ := exists_single_of_endsBare (hend e rfl)
        obtain ⟨hparts, hbehind⟩ := Text.isPaired_append_cons hu hes
        exact ⟨hparts, (Text.isPaired_cons_of_not_isHalf hu _).trans hbehind⟩
    refine List.forall_mem_cons.2 ⟨isPaired_flatMap_value hlookup ?_ hcut.1, ih ?_ hcut.2⟩
    · intro u v hmem
      exact hpairs u v (by rw [← List.cons_append]; exact List.mem_append_left es hmem)
    · intro u v hmem
      exact hpairs u v (by simp [hmem])

end Token

/-- The offset of a rejection stands at the start of the text, or before a space or a quote. -/
theorem not_cutsPair_of_rejection {lookup : Lookup} {preserveQuotes : Bool} {text : Text}
    {rejection : Rejection} (h : tokenize lookup preserveQuotes text = .error rejection) :
    ∃ offset : Nat, rejection = ⟨text, offset⟩ ∧ ¬text.CutsPair offset := by
  rcases rejection_cases h with ⟨n, -, rfl⟩ | ⟨start, n, body, htext, rfl, -, -⟩
  · refine ⟨0, rfl, ?_⟩
    rintro ⟨before, high, low, behind, -, -, -, hlength⟩
    omega
  · refine ⟨start.length, rfl, ?_⟩
    rintro ⟨before, high, low, behind, hcut, -, hlow, hlength⟩
    have hunit : text[start.length]? = some low := by
      rw [hcut, hlength, List.getElem?_append_right (by omega)]
      simp
    have hhalf := Text.isHalf_of_isLow hlow
    rw [htext] at hunit
    cases n with
    | zero =>
      have hquote := Text.getElem?_quote_behind_spaces start 0 body
      exact Text.not_isHalf_quote (Option.some.inj (hunit.symm.trans hquote) ▸ hhalf)
    | succ n =>
      have hspace := Text.getElem?_space_before_quote start (n + 1) body le_rfl (by omega)
      exact Text.not_isHalf_space (Option.some.inj (hunit.symm.trans hspace) ▸ hhalf)

open Grammar Element in
/-- If no half of a pair stands on its own in a text, nor in the values that the lookup gives for
names of this kind, then none does in a name that is looked up or in a token, and a rejection is not
placed between the halves of a pair. -/
theorem tokenize_keeps_pairs {lookup : Lookup} {text : Text} (htext : text.isPaired)
    (hlookup : lookup.KeepsPairs) (preserveQuotes : Bool) :
    (∀ name, LooksUp lookup preserveQuotes text name → name.isPaired) ∧
    (∀ tokens, tokenize lookup preserveQuotes text = .ok tokens →
      ∀ token ∈ tokens, token.isPaired) ∧
    ∀ rejection, tokenize lookup preserveQuotes text = .error rejection →
      ∃ offset : Nat, rejection = ⟨text, offset⟩ ∧ ¬text.CutsPair offset := by
  refine ⟨?_, ?_, fun _ => not_cutsPair_of_rejection⟩
  · intro name hname
    obtain ⟨before, behind, rfl⟩ := hname.exists_eq
    exact Text.isPaired_of_enclosed Text.not_isHalf_percent Text.not_isHalf_percent htext
  · intro values h
    obtain ⟨tokens, hd, -, rfl⟩ := tokenize_eq_ok_iff.1 h
    rw [← flatMap_written_elements text] at htext
    have hvalues := hd.isPaired_value hlookup preserveQuotes
      (fun _ _ => isPair_of_mem_elements) htext
    intro token htoken
    obtain ⟨found, hfound, rfl⟩ := List.mem_map.1 htoken
    exact hvalues found hfound

open Grammar in
/-- In the text `%😀%"😁` the name is a pair, which is looked up although the text is rejected, and
the rejection stands between two pairs. -/
theorem tokenize_keeps_pairs_of_open_quote :
    LooksUp Lookup.none true
      [Text.percent, 0xD83D, 0xDE00, Text.percent, Text.quote, 0xD83D, 0xDE01] [0xD83D, 0xDE00] ∧
    Text.isPaired [0xD83D, 0xDE00] ∧
    tokenize Lookup.none true
        [Text.percent, 0xD83D, 0xDE00, Text.percent, Text.quote, 0xD83D, 0xDE01] =
      .error ⟨[Text.percent, 0xD83D, 0xDE00, Text.percent, Text.quote, 0xD83D, 0xDE01], 4⟩ ∧
    ¬Text.CutsPair [Text.percent, 0xD83D, 0xDE00, Text.percent, Text.quote, 0xD83D, 0xDE01] 4 := by
  have hname : LooksUp Lookup.none true
      [Text.percent, 0xD83D, 0xDE00, Text.percent, Text.quote, 0xD83D, 0xDE01]
      [0xD83D, 0xDE00] := by
    exact ⟨_, _, .many (.refl _) (.map (.map (.seqFirst (.seqSecond rfl (.altSecond rfl
      (.map (.many1 (.refl _) (.altSecond rfl (.altFirst .self))))))))), rfl⟩
  have herror : tokenize Lookup.none true
        [Text.percent, 0xD83D, 0xDE00, Text.percent, Text.quote, 0xD83D, 0xDE01] =
      .error ⟨[Text.percent, 0xD83D, 0xDE00, Text.percent, Text.quote, 0xD83D, 0xDE01], 4⟩ := rfl
  have h := @tokenize_keeps_pairs Lookup.none
    [Text.percent, 0xD83D, 0xDE00, Text.percent, Text.quote, 0xD83D, 0xDE01] (by decide)
    (fun _ _ _ h => by cases h) true
  obtain ⟨offset, hoffset, hcut⟩ := h.2.2 _ herror
  obtain rfl : 4 = offset := Int.ofNat.inj (congrArg Rejection.offset hoffset)
  exact ⟨hname, h.1 _ hname, herror, hcut⟩

end CommandText
