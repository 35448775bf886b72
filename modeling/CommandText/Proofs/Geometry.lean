import CommandText.Proofs.Pairing
import CommandText.Proofs.Splitting

/-!
# The geometry of a diagnostic

A diagnostic cuts the text at the caret twice: the lines before the caret tell the place, and the
lines of the whole text tell what is shown. Both cuts agree because the line of the caret is put
together from the last line before it and the first line behind it, which is `Text.splitOn_append`.
Everything that is printed in front of the caret has the width of what is printed in front of the
line of the text, so the caret stands under its unit, however many digits the number of the line
has. No part of a line contains a newline, so there are seven lines for every text and offset.
-/

namespace CommandText

namespace Text

theorem notMem_of_mem_splitOn {sep : UInt16} {t piece : Text} (h : piece ∈ splitOn sep t) :
    sep ∉ piece := by
  induction t generalizing piece with
  | nil => simp_all [splitOn]
  | cons u t ih =>
    by_cases hu : u = sep
    · rw [splitOn, if_pos hu, List.mem_cons] at h
      rcases h with rfl | h
      · simp
      · exact ih h
    · obtain ⟨first, back, ht⟩ := List.exists_cons_of_ne_nil (splitOn_ne_nil sep t)
      simp only [splitOn, if_neg hu, ht, List.mem_cons] at h
      rcases h with rfl | h
      · have hfirst := @ih first (by simp [ht])
        simp [hfirst, Ne.symm hu]
      · exact ih (by simp [ht, h])

/-- Two texts in a row have the lines of both, where the last line of the first text and the first
line of the second one are one line. -/
theorem splitOn_append (sep : UInt16) (a b : Text) :
    ∃ front last first back, splitOn sep a = front ++ [last] ∧ splitOn sep b = first :: back ∧
      splitOn sep (a ++ b) = front ++ (last ++ first) :: back := by
  induction a with
  | nil =>
    obtain ⟨first, back, hb⟩ := List.exists_cons_of_ne_nil (splitOn_ne_nil sep b)
    exact ⟨[], [], first, back, rfl, hb, hb⟩
  | cons u a ih =>
    obtain ⟨front, last, first, back, ha, hb, hab⟩ := ih
    by_cases hu : u = sep
    · refine ⟨[] :: front, last, first, back, ?_, hb, ?_⟩
      · simp [splitOn, hu, ha]
      · simp [splitOn, hu, hab]
    · cases front with
      | nil =>
        refine ⟨[], u :: last, first, back, ?_, hb, ?_⟩
        · simp [splitOn, hu, ha]
        · simp [splitOn, hu, hab]
      | cons line front =>
        refine ⟨(u :: line) :: front, last, first, back, ?_, hb, ?_⟩
        · simp [splitOn, hu, ha]
        · simp [splitOn, hu, hab]

theorem length_splitOn (sep : UInt16) (t : Text) : (splitOn sep t).length = t.count sep + 1 := by
  induction t with
  | nil => rfl
  | cons u t ih =>
    by_cases hu : u = sep
    · simp [splitOn, hu, ih]
    · obtain ⟨first, back, ht⟩ := List.exists_cons_of_ne_nil (splitOn_ne_nil sep t)
      simpa [splitOn, hu, ht] using ih

theorem sum_length_splitOn (sep : UInt16) (t : Text) :
    ((splitOn sep t).map List.length).sum + t.count sep = t.length := by
  induction t with
  | nil => rfl
  | cons u t ih =>
    by_cases hu : u = sep
    · simp only [splitOn, hu, if_true, List.map_cons, List.length_nil, List.sum_cons,
        List.count_cons_self, List.length_cons]
      omega
    · obtain ⟨first, back, ht⟩ := List.exists_cons_of_ne_nil (splitOn_ne_nil sep t)
      simp only [ht, List.map_cons, List.sum_cons] at ih
      simp only [splitOn, hu, if_false, ht, List.map_cons, List.length_cons, List.sum_cons,
        List.count_cons_of_ne hu]
      omega

theorem head?_splitOn {sep u : UInt16} {t first : Text} {back : List Text}
    (h : splitOn sep t = first :: back) (hu : t.head? = some u) (hne : u ≠ sep) :
    first.head? = some u := by
  cases t with
  | nil => simp at hu
  | cons v t =>
    obtain rfl : v = u := by simpa using hu
    obtain ⟨first', back', ht⟩ := List.exists_cons_of_ne_nil (splitOn_ne_nil sep t)
    simp only [splitOn, if_neg hne, ht, List.cons.injEq] at h
    simp [← h.1]

theorem splitOn_join {sep : UInt16} {lines : List Text} (hne : lines ≠ [])
    (h : ∀ line ∈ lines, sep ∉ line) : splitOn sep (join [sep] lines) = lines := by
  induction lines with
  | nil => exact absurd rfl hne
  | cons line rest ih =>
    obtain ⟨hline, hrest⟩ := List.forall_mem_cons.1 h
    cases rest with
    | nil => exact splitOn_of_notMem hline
    | cons next rest =>
      rw [join, List.append_assoc, List.singleton_append, splitOn_append_cons hline,
        ih (by simp) hrest]

theorem toNat_toUInt16_of_isDigit {c : Char} (h : c.isDigit) :
    0x30 ≤ c.toNat ∧ c.toNat ≤ 0x39 ∧ c.toNat.toUInt16.toNat = c.toNat := by
  have hc : 48 ≤ c.toNat ∧ c.toNat ≤ 57 := by
    simpa [Char.isDigit, UInt32.le_iff_toNat_le] using h
  have hmod : c.toNat.toUInt16.toNat = c.toNat % 2 ^ 16 := rfl
  omega

theorem isDigit_toUInt16 {c : Char} (h : c.isDigit) : isDigit c.toNat.toUInt16 := by
  obtain ⟨hlow, hhigh, hc⟩ := toNat_toUInt16_of_isDigit h
  simp only [isDigit, Bool.and_eq_true, decide_eq_true_eq, UInt16.le_iff_toNat_le, hc]
  exact ⟨hlow, hhigh⟩

theorem digits?_map {l : List Char} (h : ∀ c ∈ l, c.isDigit) (acc : Nat) :
    digits? acc (l.map fun c => c.toNat.toUInt16) = some (Nat.ofDigitChars 10 l acc) := by
  induction l generalizing acc with
  | nil => rfl
  | cons c l ih =>
    obtain ⟨hc, hl⟩ := List.forall_mem_cons.1 h
    obtain ⟨-, -, hnat⟩ := toNat_toUInt16_of_isDigit hc
    rw [List.map_cons, digits?, if_pos (isDigit_toUInt16 hc), hnat, ih hl, Nat.ofDigitChars_cons]
    rfl

theorem isDigit_of_mem_toDigits {n : Nat} {c : Char} (h : c ∈ Nat.toDigits 10 n) : c.isDigit :=
  Nat.isDigit_of_mem_toDigits (by decide) (by decide) h

theorem digits?_ofNat (n : Nat) : digits? 0 (ofNat n) = some n := by
  rw [ofNat, digits?_map fun c hc => isDigit_of_mem_toDigits hc, Nat.ofDigitChars_ten_toDigits]

theorem notMem_ofNat {u : UInt16} (h : ¬isDigit u) (n : Nat) : u ∉ ofNat n := by
  intro hu
  obtain ⟨c, hc, rfl⟩ := List.mem_map.1 hu
  exact h (isDigit_toUInt16 (isDigit_of_mem_toDigits hc))

theorem before_natCast (t : Text) (n : Nat) : t.before n = t.take n := by
  unfold before
  rw [if_neg (by omega), Int.toNat_natCast]

theorem exists_before_eq_take (t : Text) (k : Int) : ∃ n ≤ t.length, t.before k = t.take n := by
  by_cases hk : k < 0
  · refine ⟨(t.length + k).toNat, by omega, ?_⟩
    rw [before, if_pos hk]
  · refine ⟨min k.toNat t.length, Nat.min_le_right _ _, ?_⟩
    rw [before, if_neg hk]
    simp

end Text

namespace Diagnostic

/-- A place is that of a position in a text, and `source` is the line of the text that it is in. The
lines before it, their newlines and the columns before it are the units before the position. -/
structure Place.Locates (place : Place) (text : Text) (pos : Nat) (source : Text) : Prop where
  line_pos : 1 ≤ place.line
  column_pos : 1 ≤ place.column
  newlines : place.line - 1 = (text.take pos).count Text.newline
  units : (((text.splitOn Text.newline).take (place.line - 1)).map List.length).sum +
    (place.line - 1) + (place.column - 1) = pos
  source_eq : (text.splitOn Text.newline)[place.line - 1]? = some source
  unit : ∀ u, text[pos]? = some u → u ≠ Text.newline → source[place.column - 1]? = some u

/-- The lines before a position and the lines of the whole text agree on its place. -/
theorem exists_locates_place (text : Text) {pos : Nat} (h : pos ≤ text.length) :
    ∃ source, (place text pos).Locates text pos source := by
  obtain ⟨front, last, first, back, hbefore, hbehind, hwhole⟩ :=
    Text.splitOn_append Text.newline (text.take pos) (text.drop pos)
  rw [List.take_append_drop] at hwhole
  have hplace : place text pos = ⟨front.length + 1, last.length + 1⟩ := by
    simp [place, Text.before_natCast, hbefore]
  have hcount : front.length = (text.take pos).count Text.newline := by
    simpa [hbefore] using Text.length_splitOn Text.newline (text.take pos)
  refine ⟨last ++ first, ?_⟩
  rw [hplace]
  refine ⟨Nat.le_add_left 1 _, Nat.le_add_left 1 _, hcount, ?_, ?_, ?_⟩
  · have hsum := Text.sum_length_splitOn Text.newline (text.take pos)
    rw [hbefore, ← hcount, List.length_take, Nat.min_eq_left h] at hsum
    simp only [List.map_append, List.map_cons, List.map_nil, List.sum_append, List.sum_cons,
      List.sum_nil] at hsum
    simp only [hwhole, Nat.add_sub_cancel, List.take_left]
    omega
  · simp [hwhole]
  · intro u hu hne
    have hhead : (text.drop pos).head? = some u := by rwa [List.head?_drop]
    have hfirst := Text.head?_splitOn hbehind hhead hne
    rw [List.head?_eq_getElem?] at hfirst
    simpa [List.getElem?_append_right] using hfirst

theorem exists_place_eq (text : Text) (pos : Int) :
    ∃ n ≤ text.length, place text pos = place text n := by
  obtain ⟨n, hn, hbefore⟩ := text.exists_before_eq_take pos
  refine ⟨n, hn, ?_⟩
  unfold place
  rw [hbefore, Text.before_natCast]

theorem exists_find_pos_eq {text : Text} {offset : Int} (h : 0 ≤ offset)
    (h' : offset ≤ text.length) : ∃ pos : Nat, (find text offset).pos = pos ∧ pos ≤ text.length := by
  obtain ⟨n, rfl⟩ := Int.eq_ofNat_of_zero_le h
  have hn : n ≤ text.length := by omega
  have hspaces := ((text.drop n).takeWhile_sublist (· == Text.space)).length_le
  rw [List.length_drop] at hspaces
  have hskip : skipSpaces text n =
      (n + ((text.drop n).takeWhile (· == Text.space)).length : Nat) := by
    simp [skipSpaces]
  unfold find
  dsimp only
  split_ifs
  · exact ⟨n, rfl, hn⟩
  · exact ⟨_, hskip, by omega⟩
  · exact ⟨_, hskip, by omega⟩

theorem newline_notMem_paint {colors : Bool} {styles : List Style} {t : Text}
    (h : Text.newline ∉ t) : Text.newline ∉ paint colors styles t := by
  have hcode : ∀ style : Style, Text.newline ∉ style.code := by
    intro style
    cases style <;> decide +kernel
  have hreset : Text.newline ∉ reset := by decide +kernel
  unfold paint
  split
  · simp [h, hcode, hreset]
  · exact h

theorem notMem_blanks {u : UInt16} (h : u ≠ Text.space) (n : Nat) : u ∉ blanks n := by
  intro hu
  exact h (List.eq_of_mem_replicate hu)

theorem newline_notMem_label (fault : Fault) : Text.newline ∉ fault.label := by
  cases fault <;> decide +kernel

theorem newline_notMem_help (fault : Fault) : Text.newline ∉ fault.help := by
  cases fault <;> decide +kernel

theorem caret_notMem_label (fault : Fault) : Text.caret ∉ fault.label := by
  cases fault <;> decide +kernel

theorem newline_notMem_lines (colors : Bool) (r : Rejection) :
    ∀ line ∈ lines colors r, Text.newline ∉ line := by
  have hnumber := Text.notMem_ofNat (u := Text.newline) (by decide)
  have hblanks := notMem_blanks (u := Text.newline) (by decide)
  have hsource : ∀ i : Nat, Text.newline ∉ (r.text.splitOn Text.newline)[i]?.getD [] := by
    intro i
    cases hline : (r.text.splitOn Text.newline)[i]? with
    | none => exact List.not_mem_nil
    | some line => exact Text.notMem_of_mem_splitOn (List.mem_of_getElem? hline)
  have hlabel := newline_notMem_label (find r.text r.offset).fault
  have hhelp := newline_notMem_help (find r.text r.offset).fault
  simp +decide [lines, hnumber, hblanks, hsource, hlabel, hhelp, newline_notMem_paint]

/-- The lines name a place in decimal numerals, and show the line of the text that it is in behind
its number. -/
structure Shows (colors : Bool) (place : Place) (source : Text) (shown : List Text) : Prop where
  named : ∃ line column, shown[1]? = some ("  " ++ paint colors [.blue] "-->" ++ " input:" ++ line ++
    ":" ++ column) ∧ Text.digits? 0 line = some place.line ∧
      Text.digits? 0 column = some place.column
  quoted : ∃ number, shown[3]? = some (" " ++ paint colors [.blue] number ++ " " ++
    paint colors [.blue] "|" ++ " " ++ source) ∧ Text.digits? 0 number = some place.line

/-- The only caret of the line below stands at the index at which a column of the line of the text
is shown. -/
def CaretUnder (source : Text) (column : Nat) (shown : List Text) : Prop :=
  ∃ lead below, shown[3]? = some (lead ++ source) ∧ shown[4]? = some below ∧
    below.count Text.caret = 1 ∧ below.idxOf Text.caret = lead.length + (column - 1)

theorem shows_lines (colors : Bool) (r : Rejection) {source : Text}
    (h : (r.text.splitOn Text.newline)[(place r.text (find r.text r.offset).pos).line - 1]? =
      some source) :
    Shows colors (place r.text (find r.text r.offset).pos) source (lines colors r) := by
  constructor
  · exact ⟨_, _, rfl, Text.digits?_ofNat _, Text.digits?_ofNat _⟩
  · refine ⟨_, ?_, Text.digits?_ofNat _⟩
    simp [lines, h]

/-- What is printed before the caret has the width of the number and the bar, and then one blank for
each column. -/
theorem caretLine_eq (place : Place) (label : Text) :
    ∃ front, caretLine false place label = front ++ Text.caret :: Text.space :: label ∧
      Text.caret ∉ front ∧
      front.length = (Text.ofNat place.line).length + 4 + (place.column - 1) := by
  have hblanks := notMem_blanks (u := Text.caret) (by decide)
  have hmark : Text.ofString "^ " = [Text.caret, Text.space] := by decide
  refine ⟨" " ++ blanks (Text.ofNat place.line).length ++ " " ++ "|" ++ " " ++
    blanks (place.column - 1), ?_, ?_, ?_⟩
  · simp [caretLine, paint, hmark]
  · simp +decide [hblanks]
  · have hspace : (Text.ofString " ").length = 1 := by decide
    have hbar : (Text.ofString "|").length = 1 := by decide
    simp only [List.length_append, hspace, hbar, blanks, List.length_replicate]
    omega

theorem caretUnder_lines (r : Rejection) {source : Text}
    (h : (r.text.splitOn Text.newline)[(place r.text (find r.text r.offset).pos).line - 1]? =
      some source) :
    CaretUnder source (place r.text (find r.text r.offset).pos).column (lines false r) := by
  obtain ⟨front, hfront, hnot, hlength⟩ := caretLine_eq (place r.text (find r.text r.offset).pos)
    (find r.text r.offset).fault.label
  have hlabel := caret_notMem_label (find r.text r.offset).fault
  refine ⟨" " ++ Text.ofNat (place r.text (find r.text r.offset).pos).line ++ " " ++ "|" ++ " ",
    _, ?_, (pointsAt_lines false r rfl).labelled, ?_, ?_⟩
  · simp [lines, paint, h]
  · simp +decide [hfront, hnot, hlabel, List.count_eq_zero_of_not_mem]
  · have hspace : (Text.ofString " ").length = 1 := by decide
    have hbar : (Text.ofString "|").length = 1 := by decide
    rw [hfront, List.idxOf_append_of_notMem hnot, List.idxOf_cons_self, hlength]
    simp only [List.length_append, hspace, hbar]
    omega

theorem splitOn_render (colors : Bool) (r : Rejection) :
    (render colors r).splitOn Text.newline = lines colors r :=
  Text.splitOn_join (List.cons_ne_nil _ _) (newline_notMem_lines colors r)

/-- For every text and offset a diagnostic has seven lines, in colours or not, and the line of the
text that it shows exists. From an offset in the text, the place that it names is that of the
caret's position, the line that it shows is the line of this place, and without colours the caret
stands under the unit at this position. -/
theorem render_caret_under_unit (text : Text) (offset : Int) :
    let finding := find text offset
    let place := place text finding.pos
    ∃ source, (text.splitOn Text.newline)[place.line - 1]? = some source ∧
      1 ≤ place.line ∧ 1 ≤ place.column ∧
      (∀ colors, ((render colors ⟨text, offset⟩).splitOn Text.newline).length = 7 ∧
        Shows colors place source ((render colors ⟨text, offset⟩).splitOn Text.newline)) ∧
      (0 ≤ offset → offset ≤ text.length →
        ∃ pos : Nat, finding.pos = pos ∧ pos ≤ text.length ∧ place.Locates text pos source ∧
          CaretUnder source place.column
            ((render false ⟨text, offset⟩).splitOn Text.newline)) := by
  intro finding place
  obtain ⟨n, hn, hplace⟩ := exists_place_eq text finding.pos
  obtain ⟨source, hlocates⟩ := exists_locates_place text hn
  rw [← hplace] at hlocates
  refine ⟨source, hlocates.source_eq, hlocates.line_pos, hlocates.column_pos, ?_, ?_⟩
  · intro colors
    rw [splitOn_render]
    exact ⟨rfl, shows_lines colors ⟨text, offset⟩ hlocates.source_eq⟩
  · intro h h'
    obtain ⟨pos, hpos, hle⟩ := exists_find_pos_eq h h'
    obtain ⟨source', hlocates'⟩ := exists_locates_place text hle
    rw [← hpos] at hlocates'
    obtain rfl : source' = source :=
      Option.some.inj (hlocates'.source_eq.symm.trans hlocates.source_eq)
    refine ⟨pos, hpos, hle, hlocates', ?_⟩
    rw [splitOn_render]
    exact caretUnder_lines ⟨text, offset⟩ hlocates.source_eq

/-- Nine newlines and `a "b`. -/
def tenLines : Text := List.replicate 9 Text.newline ++ [0x61, Text.space, Text.quote, 0x62]

/-- From the space in the last of ten lines, the caret moves on to the quote and stands in the third
column, behind a number of two digits. -/
theorem render_caret_under_quote_in_tenth_line :
    ∃ source, source = [0x61, Text.space, Text.quote, 0x62] ∧
      (place tenLines 11).Locates tenLines 11 source ∧
      CaretUnder source 3 ((render false ⟨tenLines, 10⟩).splitOn Text.newline) := by
  obtain ⟨source, hsource, -, -, -, h⟩ := render_caret_under_unit tenLines 10
  obtain ⟨pos, hpos, -, hlocates, hcaret⟩ := h (by decide) (by decide)
  obtain rfl : 11 = pos := Int.ofNat.inj hpos
  exact ⟨source, (Option.some.inj hsource).symm, hlocates, hcaret⟩

end Diagnostic

end CommandText
