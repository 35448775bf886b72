import CommandText.Proofs.Geometry

/-!
# Diagnostics of rejected texts are true

What is rendered for a rejection of the tokenizer tells the truth about the text. Either the text
consists of spaces, or the caret points at a quote that opens a term, and no quote behind it could
close the term, since each of them is escaped or stands in a reference. The third fault is never
reported: a rendered diagnostic has a single label, since the label can be read off the line with
the caret.
-/

namespace CommandText

namespace Diagnostic

open Element

theorem blanks_append (m n : Nat) : blanks m ++ blanks n = blanks (m + n) := by
  unfold blanks
  exact List.replicate_append_replicate

/-- Only the numbers of blanks and the label differ between lines with a caret. -/
theorem exists_caretLine_eq (colors : Bool) :
    ∃ (u : UInt16) (between behind : Text), u ≠ Text.space ∧ ∀ place label, ∃ m n,
      caretLine colors place label = blanks m ++ u ::
        (between ++ (blanks n ++ Text.caret :: (Text.space :: label ++ behind))) := by
  cases colors with
  | false =>
    refine ⟨0x7C, [Text.space], [], by decide, ?_⟩
    intro place label
    refine ⟨1 + (Text.ofNat place.line).length + 1, place.column - 1, ?_⟩
    rw [← blanks_append, ← blanks_append, List.append_nil]
    simp only [caretLine, paint, List.append_assoc]
    rfl
  | true =>
    refine ⟨0x1B, Style.blue.code.tail ++ 0x7C :: (reset ++ Text.space :: Style.red.code), reset,
      by decide, ?_⟩
    intro place label
    refine ⟨1 + (Text.ofNat place.line).length + 1, place.column - 1, ?_⟩
    rw [← blanks_append, ← blanks_append]
    simp only [caretLine, paint, List.append_assoc]
    rfl

theorem eq_of_blanks_append {m n : Nat} {u : UInt16} {s s' : Text} (hu : u ≠ Text.space)
    (h : blanks m ++ u :: s = blanks n ++ u :: s') : s = s' := by
  have hafter := congrArg Text.afterSpaces h
  unfold blanks at hafter
  rw [Text.afterSpaces_replicate_append, Text.afterSpaces_replicate_append,
    Text.afterSpaces_eq_self (by simpa using hu), Text.afterSpaces_eq_self (by simpa using hu)]
    at hafter
  exact List.tail_eq_of_cons_eq hafter

theorem label_eq_of_caretLine_eq {colors : Bool} {place place' : Place} {label label' : Text}
    (h : caretLine colors place label = caretLine colors place' label') : label = label' := by
  obtain ⟨u, between, behind, hu, hline⟩ := exists_caretLine_eq colors
  obtain ⟨m, n, hm⟩ := hline place label
  obtain ⟨m', n', hm'⟩ := hline place' label'
  rw [hm, hm'] at h
  have hcaret := List.append_cancel_left (eq_of_blanks_append hu h)
  have hlabel := eq_of_blanks_append (by decide) hcaret
  exact List.append_cancel_right (List.tail_eq_of_cons_eq hlabel)

theorem Fault.label_injective {f g : Fault} (h : f.label = g.label) : f = g := by
  revert h
  cases f <;> cases g <;> decide +kernel

theorem pointsAt_render (colors : Bool) (r : Rejection) {finding : Finding}
    (h : find r.text r.offset = finding) :
    PointsAt colors (place r.text finding.pos) finding.fault.label finding.fault.help
      ((render colors r).splitOn Text.newline) := by
  rw [splitOn_render]
  exact pointsAt_lines colors r h

theorem caretLine_ne_of_ne {colors : Bool} {r : Rejection} {finding : Finding}
    (h : find r.text r.offset = finding) (fault : Fault) (hne : fault ≠ finding.fault)
    (place : Place) :
    ((render colors r).splitOn Text.newline)[4]? ≠ some (caretLine colors place fault.label) := by
  intro hline
  have hfound := (pointsAt_render colors r h).labelled
  apply hne
  apply Fault.label_injective
  exact label_eq_of_caretLine_eq (Option.some.inj (hline.symm.trans hfound))

/-- Behind a quote that is not closed, every quote is escaped or stands in a reference. -/
theorem quote_hidden_of_run {text body : Text} {before : List Element} {q : Nat}
    (h : text.elements = before ++ single Text.quote :: body.elements)
    (hrun : (run endsQuoted body).2 = []) (hq : width before < q)
    (hquote : text[q]? = some Text.quote) :
    ∃ i e, BeginsAt text i e ∧
      (e = pair Text.backslash Text.quote ∧ q = i + 1 ∨
        ∃ name, e = reference name ∧ i < q ∧ q ≤ i + name.length) := by
  have hbody : body.elements = (run endsQuoted body).1 := by
    rw [elements_eq_run_append endsQuoted body, hrun, elements_nil, List.append_nil]
  rw [← List.singleton_append, ← List.append_assoc] at h
  have hwidth : width (before ++ [single Text.quote]) = width before + 1 := width_append _ _
  obtain ⟨e, he, i, k, hi, hk, hw⟩ := exists_beginsAt_of_getElem? h (by omega) hquote
  have hsingle : e ≠ single Text.quote := by
    intro heq
    rw [hbody] at he
    exact not_stops_of_mem_run he (by simp [endsAt, heq])
  have hpair : ∀ u v, e = pair u v → isPair u v := by
    intro u v heq
    exact isPair_of_mem_elements (heq ▸ he)
  refine ⟨i, e, hi, ?_⟩
  rcases quote_in_written hw hsingle hpair with ⟨rfl, rfl⟩ | ⟨name, rfl, hpos, hle⟩
  · exact .inl ⟨rfl, hk⟩
  · exact .inr ⟨name, rfl, by omega, by omega⟩

/-- The text ` "\"%"%`. -/
def hiddenQuotes : Text :=
  [Text.space, Text.quote, Text.backslash, Text.quote, Text.percent, Text.quote, Text.percent]

end Diagnostic

end CommandText
