import CommandText.Proofs.Geometry
import Mathlib.Data.List.Basic
import Mathlib.Logic.Relation

/-!
# Colours are decoration

A coloured diagnostic is a row of signs, each of which is a terminal sequence or a single unit.
Every sequence starts with the escape unit and contains no other one. So as long as no single unit
is an escape unit, each occurrence of a sequence in the row is one of its signs
(`Diagnostic.exists_sign_of_written_eq`), and no occurrence begins in one sign and ends in another.
Deleting the sequences, in whatever order, therefore leaves the single units, which are the
diagnostic without colours. In each line the last sign of a painted part is a reset.
-/

namespace CommandText

namespace Text

/-- A text without the occurrences of some patterns, which are found from left to right. -/
def without (patterns : List Text) : Text → Text
  | [] => []
  | u :: t =>
    match patterns.findSome? fun p => after? p (u :: t) with
    | some rest =>
      -- The empty pattern stands everywhere, and deleting it changes nothing.
      if rest.length ≤ t.length then without patterns rest else u :: without patterns t
    | none => u :: without patterns t
termination_by t => t.length

inductive Deletes (patterns : List Text) : Text → Text → Prop
  | mk {p : Text} (hp : p ∈ patterns) (before behind : Text) :
      Deletes patterns (before ++ (p ++ behind)) (before ++ behind)

/-- Occurrences of patterns are deleted one by one, in any order, until none is left. -/
def DeletesAll (patterns : List Text) (t s : Text) : Prop :=
  Relation.ReflTransGen (Deletes patterns) t s ∧ ∀ p ∈ patterns, ¬p <:+: s

theorem mem_of_mem_splitOn {sep u : UInt16} {t piece : Text} (h : piece ∈ splitOn sep t)
    (hu : u ∈ piece) : u ∈ t := by
  induction t generalizing piece with
  | nil => simp_all [splitOn]
  | cons v t ih =>
    by_cases hv : v = sep
    · rw [splitOn, if_pos hv, List.mem_cons] at h
      rcases h with rfl | h
      · cases hu
      · exact List.mem_cons_of_mem v (ih h hu)
    · obtain ⟨first, back, ht⟩ := List.exists_cons_of_ne_nil (splitOn_ne_nil sep t)
      simp only [splitOn, if_neg hv, ht, List.mem_cons] at h
      rcases h with rfl | h
      · rcases List.mem_cons.1 hu with rfl | hu
        · exact List.mem_cons_self
        · exact List.mem_cons_of_mem v (ih (by simp [ht]) hu)
      · exact List.mem_cons_of_mem v (ih (by simp [ht, h]) hu)

end Text

namespace Diagnostic

abbrev esc : UInt16 := 0x1B

def sequences : List Text :=
  [reset, Style.bold.code, Style.red.code, Style.blue.code, Style.green.code]

/-- A change of style, or the end of all styles. -/
inductive Mark where
  | reset
  | style (s : Style)

namespace Mark

def all : List Mark := [reset, style .bold, style .red, style .blue, style .green]

def parameter : Mark → Text
  | reset => "0"
  | style .bold => "1"
  | style .red => "31"
  | style .green => "32"
  | style .blue => "34"

def code : Mark → Text
  | reset => Diagnostic.reset
  | style s => s.code

theorem code_eq (m : Mark) : m.code = sequence m.parameter := by
  rcases m with _ | s
  · rfl
  · cases s <;> rfl

theorem mem_all (m : Mark) : m ∈ all := by
  rcases m with _ | s
  · simp [all]
  · cases s <;> simp [all]

theorem mem_sequences {p : Text} : p ∈ sequences ↔ ∃ m : Mark, p = m.code := by
  have hall : sequences = all.map code := rfl
  simp [hall, mem_all, eq_comm]

theorem parameter_injective {m n : Mark} (h : m.parameter = n.parameter) : m = n := by
  have hfind : ∀ m : Mark, all.find? (fun n => n.parameter == m.parameter) = some m := by
    rintro (_ | s)
    · rfl
    · cases s <;> rfl
  exact Option.some.inj ((hfind m).symm.trans (h ▸ hfind n))

theorem code_eq_cons (m : Mark) : ∃ rest, m.code = esc :: rest ∧ esc ∉ rest := by
  refine ⟨0x5B :: (m.parameter ++ [0x6D]), m.code_eq, ?_⟩
  rcases m with _ | s
  · decide
  · cases s <;> decide

theorem eq_of_code_append {m n : Mark} {t t' : Text} (h : m.code ++ t = n.code ++ t') :
    m = n ∧ t = t' := by
  have hend : ∀ m : Mark, (0x6D : UInt16) ∉ m.parameter := by
    rintro (_ | s)
    · decide
    · cases s <;> decide
  rw [code_eq, code_eq] at h
  simp only [sequence, List.cons_append, List.append_assoc, List.nil_append, List.cons.injEq,
    true_and] at h
  have hcut := congrArg (Text.cut? 0x6D) h
  rw [Text.cut?_append (hend m), Text.cut?_append (hend n), Option.some_inj, Prod.mk.injEq] at hcut
  exact ⟨parameter_injective hcut.1, hcut.2⟩

end Mark

inductive Sign where
  | mark (m : Mark)
  | unit (u : UInt16)

namespace Sign

def written : Sign → Text
  | mark m => m.code
  | unit u => [u]

def unit? : Sign → Option UInt16
  | mark _ => none
  | unit u => some u

theorem flatMap_written_units (t : Text) : (t.map unit).flatMap written = t := by
  rw [List.flatMap_map]
  exact List.flatMap_singleton' t

theorem flatMap_written_styles (styles : List Style) :
    (styles.map fun s => mark (.style s)).flatMap written = (styles.map Style.code).flatten := by
  rw [List.flatMap_map]
  rfl

theorem filterMap_unit?_units (t : Text) : (t.map unit).filterMap unit? = t := by
  rw [List.filterMap_map]
  exact List.filterMap_some

theorem filterMap_unit?_styles (styles : List Style) :
    (styles.map fun s => mark (.style s)).filterMap unit? = [] := by
  rw [List.filterMap_map]
  exact List.filterMap_none styles

end Sign

/-- Signs that make up a text, of which no single unit could start a sequence. The single units are
the text without the sequences. -/
structure Draws (signs : List Sign) (coloured plain : Text) : Prop where
  apart : Sign.unit esc ∉ signs
  written : signs.flatMap Sign.written = coloured
  units : signs.filterMap Sign.unit? = plain

/-- Where a sequence occurs in a row of signs, it is one of the signs. -/
theorem exists_sign_of_written_eq {signs : List Sign} (h : Sign.unit esc ∉ signs) {m : Mark}
    {before behind : Text} (heq : signs.flatMap Sign.written = before ++ (m.code ++ behind)) :
    ∃ front back, signs = front ++ .mark m :: back ∧ front.flatMap Sign.written = before ∧
      back.flatMap Sign.written = behind := by
  induction signs generalizing before with
  | nil =>
    obtain ⟨tail, hcode, -⟩ := m.code_eq_cons
    simp [hcode] at heq
  | cons sign rest ih =>
    rw [List.mem_cons, not_or] at h
    obtain ⟨tail, hcode, -⟩ := m.code_eq_cons
    rw [List.flatMap_cons] at heq
    have hesc : sign.written ++ rest.flatMap Sign.written = before ++ esc :: (tail ++ behind) := by
      simpa [hcode] using heq
    rcases append_eq_append_cons hesc with ⟨back', hsign⟩ | ⟨before', rfl, hrest⟩
    · -- The escape unit is in the first sign, which is then the sequence.
      cases sign with
      | unit u =>
        have hu : esc ∈ (Sign.unit u).written := by simp [hsign]
        simp only [Sign.written, List.mem_singleton] at hu
        exact absurd (congrArg Sign.unit hu) h.1
      | mark n =>
        obtain ⟨tail', hcode', hnot⟩ := n.code_eq_cons
        have hfront : before = [] := by
          cases before with
          | nil => rfl
          | cons v before =>
            have htail : tail' = before ++ esc :: back' :=
              (List.cons.inj (hcode'.symm.trans hsign)).2
            simp [htail] at hnot
        subst hfront
        obtain ⟨rfl, hbehind⟩ := Mark.eq_of_code_append heq
        exact ⟨[], rest, rfl, rfl, hbehind⟩
    · have hlater : rest.flatMap Sign.written = before' ++ (m.code ++ behind) := by
        rw [hrest, hcode, List.cons_append]
      obtain ⟨front, back, rfl, hfront, hback⟩ := ih h.2 hlater
      exact ⟨sign :: front, back, rfl, by rw [List.flatMap_cons, hfront], hback⟩

theorem findSome?_code (m : Mark) (t : Text) :
    (sequences.findSome? fun p => Text.after? p (m.code ++ t)) = some t := by
  cases hfound : sequences.findSome? fun p => Text.after? p (m.code ++ t) with
  | none =>
    have hnone := List.findSome?_eq_none_iff.1 hfound m.code (Mark.mem_sequences.2 ⟨m, rfl⟩)
    rw [Text.after?_eq_some_iff.2 rfl] at hnone
    cases hnone
  | some rest =>
    obtain ⟨p, hp, hrest⟩ := List.exists_of_findSome?_eq_some hfound
    obtain ⟨n, rfl⟩ := Mark.mem_sequences.1 hp
    rw [(Mark.eq_of_code_append (Text.after?_eq_some_iff.1 hrest)).2]

theorem findSome?_of_ne {u : UInt16} (h : u ≠ esc) (t : Text) :
    (sequences.findSome? fun p => Text.after? p (u :: t)) = none := by
  apply List.findSome?_eq_none_iff.2
  intro p hp
  obtain ⟨m, rfl⟩ := Mark.mem_sequences.1 hp
  obtain ⟨rest, hcode, -⟩ := m.code_eq_cons
  rw [hcode, Text.after?, if_neg (Ne.symm h)]

namespace Draws

variable {signs : List Sign} {coloured plain : Text}

/-- Deleting the sequences from left to right leaves the single units. -/
theorem without_eq (h : Draws signs coloured plain) : coloured.without sequences = plain := by
  obtain ⟨hapart, rfl, rfl⟩ := h
  induction signs with
  | nil => rw [List.flatMap_nil, Text.without, List.filterMap_nil]
  | cons sign rest ih =>
    rw [List.mem_cons, not_or] at hapart
    rw [List.flatMap_cons]
    cases sign with
    | mark m =>
      have hfound := findSome?_code m (rest.flatMap Sign.written)
      obtain ⟨tail, hcode, -⟩ := m.code_eq_cons
      rw [hcode, List.cons_append] at hfound
      rw [Sign.written, hcode, List.cons_append, Text.without, hfound]
      dsimp only
      rw [if_pos (by simp), ih hapart.2]
      rfl
    | unit u =>
      have hu : u ≠ esc := fun heq => hapart.1 (congrArg Sign.unit heq.symm)
      rw [Sign.written, List.singleton_append, Text.without, findSome?_of_ne hu]
      dsimp only
      rw [ih hapart.2]
      rfl

theorem exists_of_deletes (h : Draws signs coloured plain) {t : Text}
    (ht : Text.Deletes sequences coloured t) : ∃ signs', Draws signs' t plain := by
  obtain ⟨hapart, hwritten, rfl⟩ := h
  cases ht with
  | mk hp before behind =>
    obtain ⟨m, rfl⟩ := Mark.mem_sequences.1 hp
    obtain ⟨front, back, rfl, rfl, rfl⟩ := exists_sign_of_written_eq hapart hwritten
    refine ⟨front ++ back, ?_, List.flatMap_append, ?_⟩
    · simpa using hapart
    · rw [List.filterMap_append, List.filterMap_append]
      rfl

theorem exists_of_reflTransGen (h : Draws signs coloured plain) {t : Text}
    (ht : Relation.ReflTransGen (Text.Deletes sequences) coloured t) :
    ∃ signs', Draws signs' t plain := by
  induction ht with
  | refl => exact ⟨signs, h⟩
  | tail _ hstep ih =>
    obtain ⟨signs', h'⟩ := ih
    exact h'.exists_of_deletes hstep

theorem eq_of_nothing_left (h : Draws signs coloured plain)
    (hnone : ∀ p ∈ sequences, ¬p <:+: coloured) : coloured = plain := by
  obtain ⟨-, rfl, rfl⟩ := h
  have hunits : ∀ m, Sign.mark m ∉ signs := by
    intro m hm
    obtain ⟨front, back, rfl⟩ := List.append_of_mem hm
    apply hnone m.code (Mark.mem_sequences.2 ⟨m, rfl⟩)
    exact ⟨front.flatMap Sign.written, back.flatMap Sign.written, by simp [Sign.written]⟩
  clear hnone
  induction signs with
  | nil => rfl
  | cons sign rest ih =>
    cases sign with
    | mark m => exact absurd List.mem_cons_self (hunits m)
    | unit u =>
      have hrest := ih fun m hm => hunits m (List.mem_cons_of_mem _ hm)
      rw [List.flatMap_cons, hrest]
      rfl

theorem reflTransGen (h : Draws signs coloured plain) :
    Relation.ReflTransGen (Text.Deletes sequences) coloured plain := by
  obtain ⟨-, rfl, rfl⟩ := h
  induction signs with
  | nil => exact .refl
  | cons sign rest ih =>
    rw [List.flatMap_cons]
    cases sign with
    | mark m => exact .head (.mk (Mark.mem_sequences.2 ⟨m, rfl⟩) [] _) ih
    | unit u =>
      refine ih.lift (u :: ·) ?_
      rintro _ _ ⟨hp, before, behind⟩
      exact .mk hp (u :: before) behind

theorem esc_notMem (h : Draws signs coloured plain) : esc ∉ plain := by
  obtain ⟨hapart, -, rfl⟩ := h
  intro hesc
  obtain ⟨sign, hmem, hunit⟩ := List.mem_filterMap.1 hesc
  cases sign with
  | mark m => cases hunit
  | unit u =>
    cases hunit
    exact hapart hmem

/-- In whatever order the sequences are deleted, the single units are left. -/
theorem deletesAll_iff (h : Draws signs coloured plain) {t : Text} :
    Text.DeletesAll sequences coloured t ↔ t = plain := by
  constructor
  · rintro ⟨hdeletes, hnone⟩
    obtain ⟨signs', h'⟩ := h.exists_of_reflTransGen hdeletes
    exact h'.eq_of_nothing_left hnone
  · rintro rfl
    refine ⟨h.reflTransGen, ?_⟩
    rintro p hp hpart
    obtain ⟨m, rfl⟩ := Mark.mem_sequences.1 hp
    obtain ⟨rest, hcode, -⟩ := m.code_eq_cons
    exact h.esc_notMem (hpart.subset (by simp [hcode]))

end Draws

/-- Behind every change of style there is a reset. -/
def Closed (signs : List Sign) : Prop :=
  ∀ front s back, signs = front ++ .mark (.style s) :: back → Sign.mark .reset ∈ back

theorem Closed.append {a b : List Sign} (ha : Closed a) (hb : Closed b) : Closed (a ++ b) := by
  intro front s back h
  rcases append_eq_append_cons h with ⟨back', rfl⟩ | ⟨front', -, hback⟩
  · obtain rfl : back' ++ b = back := by simpa using h
    exact List.mem_append_left b (ha front s back' rfl)
  · exact hb front' s back hback

theorem closed_map_unit (t : Text) : Closed (t.map .unit) := by
  intro front s back h
  have hmem : Sign.mark (.style s) ∈ t.map Sign.unit := by simp [h]
  simp at hmem

theorem closed_concat_reset (signs : List Sign) : Closed (signs ++ [.mark .reset]) := by
  intro front s back h
  rcases append_eq_append_cons h with ⟨back', rfl⟩ | ⟨front', -, hback⟩
  · obtain rfl : back' ++ [.mark .reset] = back := by simpa using h
    simp
  · cases front' <;> simp at hback

/-- The first text is the second one with parts painted, each of which is closed by a reset. -/
def Decorates (coloured plain : Text) : Prop := ∃ signs, Draws signs coloured plain ∧ Closed signs

theorem decorates_of_esc_notMem {t : Text} (h : esc ∉ t) : Decorates t t := by
  refine ⟨t.map .unit, ⟨?_, Sign.flatMap_written_units t, Sign.filterMap_unit?_units t⟩,
    closed_map_unit t⟩
  simpa using h

theorem decorates_paint {t : Text} (h : esc ∉ t) (styles : List Style) :
    Decorates (paint true styles t) (paint false styles t) := by
  refine ⟨(styles.map fun s => .mark (.style s)) ++ t.map .unit ++ [.mark .reset], ⟨?_, ?_, ?_⟩,
    closed_concat_reset _⟩
  · simpa using h
  · rw [List.flatMap_append, List.flatMap_append, Sign.flatMap_written_styles,
      Sign.flatMap_written_units]
    simp [paint, Sign.written, Mark.code]
  · rw [List.filterMap_append, List.filterMap_append, Sign.filterMap_unit?_styles,
      Sign.filterMap_unit?_units]
    exact List.append_nil t

theorem Decorates.append {a b c d : Text} (h : Decorates a b) (h' : Decorates c d) :
    Decorates (a ++ c) (b ++ d) := by
  obtain ⟨signs, ⟨hapart, rfl, rfl⟩, hclosed⟩ := h
  obtain ⟨signs', ⟨hapart', rfl, rfl⟩, hclosed'⟩ := h'
  refine ⟨signs ++ signs', ⟨?_, List.flatMap_append, List.filterMap_append⟩,
    hclosed.append hclosed'⟩
  simp [hapart, hapart']

theorem decorates_join {coloured plain : List Text} (h : List.Forall₂ Decorates coloured plain) :
    Decorates (Text.join [Text.newline] coloured) (Text.join [Text.newline] plain) := by
  have hnewline : Decorates [Text.newline] [Text.newline] := decorates_of_esc_notMem (by decide)
  induction h with
  | nil => exact decorates_of_esc_notMem List.not_mem_nil
  | @cons a b rest rest' hab hrest ih =>
    cases hrest with
    | nil => exact hab
    | cons hnext hrest => exact (hab.append hnewline).append ih

theorem esc_notMem_label (fault : Fault) : esc ∉ fault.label := by
  cases fault <;> decide +kernel

theorem esc_notMem_help (fault : Fault) : esc ∉ fault.help := by
  cases fault <;> decide +kernel

/-- Each line with colours is the line without them, painted in parts. -/
theorem decorates_lines {r : Rejection} (h : esc ∉ r.text) :
    List.Forall₂ Decorates (lines true r) (lines false r) := by
  have hnumber : ∀ n, esc ∉ Text.ofNat n := Text.notMem_ofNat (by decide)
  have hblanks : ∀ n, esc ∉ blanks n := notMem_blanks (by decide)
  have hsource : ∀ i, esc ∉ (r.text.splitOn Text.newline).getD i [] := by
    intro i hesc
    rw [List.getD_eq_getElem?_getD] at hesc
    cases hline : (r.text.splitOn Text.newline)[i]? with
    | none => simp [hline] at hesc
    | some line =>
      rw [hline] at hesc
      exact h (Text.mem_of_mem_splitOn (List.mem_of_getElem? hline) hesc)
  have hplain : ∀ {t : Text}, esc ∉ t → Decorates t t := decorates_of_esc_notMem
  have hspace : Decorates " " " " := hplain (by decide)
  have hbar : Decorates (paint true [.blue] "|") (paint false [.blue] "|") :=
    decorates_paint (by decide) _
  have hgutter : ∀ n, Decorates (" " ++ blanks n ++ " " ++ paint true [.blue] "|")
      (" " ++ blanks n ++ " " ++ paint false [.blue] "|") := by
    intro n
    exact ((hspace.append (hplain (hblanks n))).append hspace).append hbar
  unfold lines
  refine .cons ?_ (.cons ?_ (.cons ?_ (.cons ?_ (.cons ?_ (.cons ?_ (.cons ?_ .nil))))))
  · exact ((decorates_paint (by decide) _).append (hplain (by decide))).append
      (decorates_paint (by decide +kernel) _)
  · exact (((((hplain (by decide)).append (decorates_paint (by decide) _)).append
      (hplain (by decide))).append (hplain (hnumber _))).append (hplain (by decide))).append
      (hplain (hnumber _))
  · exact hgutter _
  · exact ((((hspace.append (decorates_paint (hnumber _) _)).append hspace).append hbar).append
      hspace).append (hplain (hsource _))
  · have hcaret : ∀ n (fault : Fault), esc ∉ blanks n ++ "^ " ++ fault.label := by
      intro n fault
      simp +decide [hblanks, esc_notMem_label]
    exact ((hgutter _).append hspace).append (decorates_paint (hcaret _ _) _)
  · exact hgutter _
  · exact (((hplain (by decide)).append (decorates_paint (by decide) _)).append hspace).append
      (hplain (esc_notMem_help _))

theorem Decorates.reset_behind {coloured plain : Text} (h : Decorates coloured plain) {s : Style}
    {before behind : Text} (heq : coloured = before ++ (s.code ++ behind)) : reset <:+: behind := by
  obtain ⟨signs, ⟨hapart, hwritten, -⟩, hclosed⟩ := h
  obtain ⟨front, back, hsigns, -, rfl⟩ :=
    exists_sign_of_written_eq (m := .style s) hapart (hwritten.trans heq)
  obtain ⟨front', back', rfl⟩ := List.append_of_mem (hclosed front s back hsigns)
  refine ⟨front'.flatMap Sign.written, back'.flatMap Sign.written, ?_⟩
  rw [List.flatMap_append, List.flatMap_cons, List.append_assoc]
  rfl

/-- For a text without the escape unit and every offset, deleting the terminal sequences from the
diagnostic with colours gives the diagnostic without colours, whether they are deleted from left to
right or one by one in any order. In each line, every change of style is followed by a reset. -/
theorem render_colors_are_decoration {text : Text} (htext : esc ∉ text) (offset : Int) :
    (render true ⟨text, offset⟩).without sequences = render false ⟨text, offset⟩ ∧
    (∀ t, Text.DeletesAll sequences (render true ⟨text, offset⟩) t ↔
      t = render false ⟨text, offset⟩) ∧
    ∀ line ∈ (render true ⟨text, offset⟩).splitOn Text.newline,
      ∀ (s : Style) (before behind : Text),
        line = before ++ (s.code ++ behind) → reset <:+: behind := by
  have hlines := decorates_lines (r := ⟨text, offset⟩) htext
  obtain ⟨signs, hdraws, -⟩ := decorates_join hlines
  refine ⟨hdraws.without_eq, fun t => hdraws.deletesAll_iff, ?_⟩
  intro line hline s before behind heq
  rw [splitOn_render] at hline
  obtain ⟨i, hi, rfl⟩ := List.getElem_of_mem hline
  exact (hlines.get hi (hlines.length_eq ▸ hi)).reset_behind heq

/-- The text `"[0m`, which a deletion might take for the end of a sequence. -/
def brokenReset : Text := [Text.quote, 0x5B, 0x30, 0x6D]

/-- Of a text that could be half a sequence everything stays, and its caret line is closed. -/
theorem render_colors_beside_half_sequence :
    esc ∉ brokenReset ∧
    (render true ⟨brokenReset, 0⟩).without sequences = render false ⟨brokenReset, 0⟩ ∧
    Text.DeletesAll sequences (render true ⟨brokenReset, 0⟩) (render false ⟨brokenReset, 0⟩) ∧
    ∃ before behind, (lines true ⟨brokenReset, 0⟩)[4]? =
      some (before ++ (Style.red.code ++ behind)) ∧ reset <:+: behind := by
  have hesc : esc ∉ brokenReset := by decide
  have hcaret : (lines true ⟨brokenReset, 0⟩)[4]? =
      some ((" " ++ blanks 1 ++ " " ++ paint true [.blue] "|" ++ " ") ++
        (Style.red.code ++ ("^ unterminated quoted term" ++ reset))) := by decide +kernel
  obtain ⟨hwithout, hdeletes, hclosed⟩ := render_colors_are_decoration hesc 0
  rw [splitOn_render] at hclosed
  exact ⟨hesc, hwithout, (hdeletes _).2 rfl, _, _, hcaret,
    hclosed _ (List.mem_of_getElem? hcaret) .red _ _ rfl⟩

end Diagnostic

end CommandText
