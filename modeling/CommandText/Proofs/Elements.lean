import CommandText.Proofs.Token

/-!
# The elements of a whole text

Runs and tokens take elements off a text one after another and skip nothing, so wherever they stop,
they stop between two elements of the text as a whole. `Text.elements` lists the elements of a text
from its start to its end, and `Element.BeginsAt` tells where in the text one of them begins. Every
unit of the text belongs to one of these elements.
-/

namespace CommandText

/-- The elements of a text in their order. -/
def Text.elements (t : Text) : List Element := (Element.run (fun _ => false) t).1

namespace Element

def width (es : List Element) : Nat := (es.flatMap written).length

/-- An element of a text begins at a position. -/
def BeginsAt (text : Text) (i : Nat) (e : Element) : Prop :=
  ∃ before behind, text.elements = before ++ e :: behind ∧ width before = i

theorem width_append (es es' : List Element) : width (es ++ es') = width es + width es' := by
  unfold width
  rw [List.flatMap_append, List.length_append]

theorem width_cons (e : Element) (es : List Element) :
    width (e :: es) = e.written.length + width es := by
  unfold width
  rw [List.flatMap_cons, List.length_append]

theorem elements_nil : Text.elements [] = [] := by
  unfold Text.elements
  rw [run_nil]

theorem elements_of_next? {t rest : Text} {e : Element} (h : next? t = some (e, rest)) :
    t.elements = e :: rest.elements := by
  unfold Text.elements
  rw [run_of_not_stops h (by simp)]

theorem flatMap_written_elements (t : Text) : t.elements.flatMap written = t := by
  induction t using induction_on with
  | nil =>
    rw [elements_nil]
    rfl
  | next t e rest h ih =>
    rw [elements_of_next? h, List.flatMap_cons, ih]
    exact (next?_eq_some_iff.1 h).1.symm

theorem width_elements (t : Text) : width t.elements = t.length := by
  unfold width
  rw [flatMap_written_elements]

theorem isPair_of_mem_elements {t : Text} {u v : UInt16} (h : pair u v ∈ t.elements) :
    isPair u v := by
  induction t using induction_on with
  | nil =>
    rw [elements_nil] at h
    cases h
  | next t e rest ht ih =>
    rw [elements_of_next? ht, List.mem_cons] at h
    rcases h with rfl | h
    · exact (next?_eq_some_iff.1 ht).2
    · exact ih h

/-- A run takes the first elements of a text. -/
theorem elements_eq_run_append (stops : Element → Bool) (t : Text) :
    t.elements = (run stops t).1 ++ (run stops t).2.elements := by
  induction t using induction_on with
  | nil =>
    rw [run_nil]
    rfl
  | next t e rest h ih =>
    by_cases hs : stops e
    · rw [run_of_stops h hs]
      rfl
    · rw [run_of_not_stops h hs, elements_of_next? h, ih]
      rfl

theorem not_stops_of_mem_run {stops : Element → Bool} {t : Text} {e : Element}
    (h : e ∈ (run stops t).1) : ¬stops e := by
  induction t using induction_on with
  | nil =>
    rw [run_nil] at h
    cases h
  | next t e' rest ht ih =>
    by_cases hs : stops e'
    · rw [run_of_stops ht hs] at h
      cases h
    · rw [run_of_not_stops ht hs, List.mem_cons] at h
      rcases h with rfl | h
      · exact hs
      · exact ih h

theorem elements_run_suffix (stops : Element → Bool) (t : Text) :
    (run stops t).2.elements <:+ t.elements :=
  ⟨(run stops t).1, (elements_eq_run_append stops t).symm⟩

theorem elements_suffix_of_next? {t rest : Text} {e : Element} (h : next? t = some (e, rest)) :
    rest.elements <:+ t.elements := by
  rw [elements_of_next? h]
  exact List.suffix_cons e rest.elements

theorem elements_cons_delimiter {x : UInt16} (hx : IsDelimiter x) (t : Text) :
    Text.elements (x :: t) = single x :: t.elements := elements_of_next? (next?_delimiter hx t)

theorem elements_afterSpaces_suffix (t : Text) : t.afterSpaces.elements <:+ t.elements := by
  induction t with
  | nil => exact List.suffix_rfl
  | cons u t ih =>
    by_cases hu : u = Text.space
    · have hskip : Text.afterSpaces (u :: t) = Text.afterSpaces t := by
        simp [Text.afterSpaces, hu]
      rw [hskip, hu, elements_cons_delimiter isDelimiter_space]
      exact ih.trans (List.suffix_cons _ _)
    · have hsame := @Text.afterSpaces_eq_self (u :: t) (by simpa using hu)
      simp [hsame]

end Element

namespace Token

open Element

theorem elements_suffix_of_next? {t rest : Text} {token : Token}
    (h : next? t = some (token, rest)) : rest.elements <:+ t.elements := by
  have hspaces := elements_afterSpaces_suffix t
  rcases next?_cases h with ⟨body, last, hb, hr, -, rfl⟩ | ⟨e, body, hb, -, -, rfl⟩
  · have hrun := elements_run_suffix endsQuoted body
    rw [hr, elements_cons_delimiter isDelimiter_quote] at hrun
    rw [hb, elements_cons_delimiter isDelimiter_quote] at hspaces
    have hlast := (elements_afterSpaces_suffix last).trans
      (List.suffix_cons (single Text.quote) (Text.elements last))
    exact ((hlast.trans hrun).trans (List.suffix_cons _ _)).trans hspaces
  · have hrun := elements_run_suffix endsBare body
    have hbody := Element.elements_suffix_of_next? hb
    exact (((elements_afterSpaces_suffix _).trans hrun).trans hbody).trans hspaces

theorem elements_scan_suffix (t : Text) : (scan t).2.elements <:+ t.elements := by
  induction t using induction_on with
  | stop t h => simp [scan_of_none h]
  | next t token rest h ih =>
    rw [scan_of_some h]
    exact ih.trans (elements_suffix_of_next? h)

end Token

namespace Element

theorem exists_written_getElem? {es : List Element} {q : Nat} {u : UInt16}
    (h : (es.flatMap written)[q]? = some u) :
    ∃ before e behind k, es = before ++ e :: behind ∧ q = width before + k ∧
      e.written[k]? = some u := by
  induction es generalizing q with
  | nil => cases h
  | cons e es ih =>
    rw [List.flatMap_cons] at h
    by_cases hq : q < e.written.length
    · rw [List.getElem?_append_left hq] at h
      exact ⟨[], e, es, q, rfl, (Nat.zero_add q).symm, h⟩
    · rw [List.getElem?_append_right (by omega)] at h
      obtain ⟨before, e', behind, k, rfl, hk, hu⟩ := ih h
      refine ⟨e :: before, e', behind, k, rfl, ?_, hu⟩
      rw [width_cons]
      omega

/-- Behind the place where an element begins, every unit belongs to a later element or to the
element itself. -/
theorem exists_beginsAt_of_getElem? {text : Text} {before behind : List Element} {q : Nat}
    {u : UInt16} (h : text.elements = before ++ behind) (hq : width before ≤ q)
    (hu : text[q]? = some u) :
    ∃ e ∈ behind, ∃ i k, BeginsAt text i e ∧ q = i + k ∧ e.written[k]? = some u := by
  rw [← flatMap_written_elements text, h, List.flatMap_append,
    List.getElem?_append_right hq] at hu
  obtain ⟨between, e, later, k, hb, hk, hw⟩ := exists_written_getElem? hu
  refine ⟨e, by rw [hb]; simp, width before + width between, k, ⟨before ++ between, later, ?_, ?_⟩,
    ?_, hw⟩
  · rw [h, hb, List.append_assoc]
  · exact width_append before between
  · change q - width before = _ at hk
    omega

theorem quote_in_written {e : Element} {k : Nat} (h : e.written[k]? = some Text.quote)
    (hquote : e ≠ single Text.quote) (hpair : ∀ u v, e = pair u v → isPair u v) :
    e = pair Text.backslash Text.quote ∧ k = 1 ∨
      ∃ name, e = reference name ∧ 0 < k ∧ k ≤ name.length := by
  have hpercent : Text.percent ≠ Text.quote := by decide
  cases e with
  | reference name =>
    refine .inr ⟨name, rfl, ?_⟩
    rw [written] at h
    cases k with
    | zero => exact absurd (Option.some.inj h) hpercent
    | succ k =>
      rw [List.getElem?_cons_succ] at h
      by_cases hk : k < name.length
      · omega
      · rw [List.getElem?_append_right (by omega), List.getElem?_singleton] at h
        split_ifs at h
        exact absurd (Option.some.inj h) hpercent
  | pair u v =>
    cases k with
    | zero =>
      obtain rfl : u = Text.quote := Option.some.inj h
      exact absurd (hpair Text.quote v rfl) (isDelimiter_quote.not_isPair v)
    | succ k =>
      cases k with
      | zero =>
        obtain rfl : v = Text.quote := Option.some.inj h
        rcases isPair_iff.1 (hpair u Text.quote rfl) with ⟨-, hv⟩ | ⟨rfl, -⟩
        · exact absurd hv (by decide)
        · exact .inl ⟨rfl, rfl⟩
      | succ k => cases h
  | single u =>
    cases k with
    | zero =>
      obtain rfl : u = Text.quote := Option.some.inj h
      exact absurd rfl hquote
    | succ k => cases h

end Element

end CommandText
