import CommandText.Proofs.AllOrNothing
import CommandText.Proofs.Surrogates
import CommandText.Value.Json

/-!
# Printed lists are read back

Tokens can be printed as one list of quoted texts. The writer looks at two units at a time, because
a half is written as it is in a pair and by its digits elsewhere. The reader takes one unit at a
time and knows nothing of pairs. They meet in `Value.Json.readText_quotedUnit`: what is written for
one unit is read as that unit, whatever comes next. A pair needs nothing more, as the reader takes
each of its halves for itself.
-/

namespace CommandText

namespace Text

/-- The units that can be printed next to anything. -/
def isPlain (u : UInt16) : Bool := 0x20 ≤ u && !isHalf u

theorem isPlain_iff {u : UInt16} : isPlain u ↔ 0x20 ≤ u ∧ ¬isHalf u := by
  simp [isPlain]

/-- No half stands outside a pair, and no unit breaks the line. -/
structure OneLine (t : Text) : Prop where
  paired : t.isPaired
  printable : ∀ u ∈ t, 0x20 ≤ u

theorem OneLine.append {a b : Text} (ha : a.OneLine) (hb : b.OneLine) : (a ++ b).OneLine :=
  ⟨isPaired_append ha.paired hb.paired, List.forall_mem_append.2 ⟨ha.printable, hb.printable⟩⟩

theorem OneLine.cons {u : UInt16} {t : Text} (hu : isPlain u) (ht : t.OneLine) :
    OneLine (u :: t) := by
  obtain ⟨hprintable, hhalf⟩ := isPlain_iff.1 hu
  exact ⟨(isPaired_cons_of_not_isHalf hhalf t).trans ht.paired,
    List.forall_mem_cons.2 ⟨hprintable, ht.printable⟩⟩

theorem oneLine_nil : OneLine [] := ⟨rfl, by simp⟩

theorem OneLine.join {sep : Text} (hsep : sep.OneLine) {parts : List Text}
    (h : ∀ t ∈ parts, t.OneLine) : (Text.join sep parts).OneLine := by
  fun_induction Text.join sep parts with
  | case1 => exact oneLine_nil
  | case2 t => exact h t List.mem_cons_self
  | case3 t u rest ih =>
    rw [List.forall_mem_cons] at h
    exact (h.1.append hsep).append (ih h.2)

theorem hexValue?_hexDigit : ∀ n < 16, hexValue? (hexDigit n) = some n := by decide

theorem isPlain_hexDigit : ∀ n < 16, isPlain (hexDigit n) := by decide

/-- Behind a backslash, the letter is read as the unit. -/
structure IsLetterFor (letter u : UInt16) : Prop where
  escaped : Value.Json.escaped? letter = some u
  not_hex : letter ≠ 0x75
  plain : isPlain letter

theorem isLetterFor_of_controlLetter? {u letter : UInt16} (h : controlLetter? u = some letter) :
    IsLetterFor letter u := by
  unfold controlLetter? at h
  split_ifs at h with h1 h2 h3 h4 h5 <;> cases h <;> subst u <;>
    exact ⟨by decide, by decide, by decide⟩

/-- A unit outside a pair is written by a letter, by its digits, or as it is. -/
theorem quotedUnit_cases (u : UInt16) :
    (∃ letter, IsLetterFor letter u ∧ quotedUnit u = [backslash, letter]) ∨
    quotedUnit u = hexEscape u ∨
    (u ≠ quote ∧ u ≠ backslash ∧ isPlain u) ∧ quotedUnit u = [u] := by
  unfold quotedUnit
  by_cases hmark : u = quote ∨ u = backslash
  · rw [if_pos hmark]
    refine .inl ⟨u, ?_, rfl⟩
    rcases hmark with rfl | rfl <;> exact ⟨by decide, by decide, by decide⟩
  · rw [if_neg hmark]
    cases hletter : controlLetter? u with
    | some letter => exact .inl ⟨letter, isLetterFor_of_controlLetter? hletter, rfl⟩
    | none =>
      dsimp only
      split_ifs with hhex
      · exact .inr (.inl rfl)
      · rw [not_or] at hmark
        rw [not_or, not_or] at hhex
        refine .inr (.inr ⟨⟨hmark.1, hmark.2, isPlain_iff.2 ⟨?_, ?_⟩⟩, rfl⟩)
        · exact UInt16.not_lt.1 hhex.1
        · simpa [isHalf] using hhex.2

theorem oneLine_hexEscape (u : UInt16) : (hexEscape u).OneLine := by
  have hu := u.toNat_lt
  refine .cons (by decide) (.cons (by decide) (.cons ?_ (.cons ?_ (.cons ?_ (.cons ?_ ?_)))))
  · exact isPlain_hexDigit _ (by omega)
  · exact isPlain_hexDigit _ (by omega)
  · exact isPlain_hexDigit _ (by omega)
  · exact isPlain_hexDigit _ (by omega)
  · exact oneLine_nil

theorem oneLine_quotedUnit (u : UInt16) : (quotedUnit u).OneLine := by
  rcases quotedUnit_cases u with ⟨letter, hletter, h⟩ | h | ⟨⟨-, -, hplain⟩, h⟩
  · rw [h]
    exact .cons (by decide) (.cons hletter.plain oneLine_nil)
  · rw [h]
    exact oneLine_hexEscape u
  · rw [h]
    exact .cons hplain oneLine_nil

theorem oneLine_quotedBody (t : Text) : (quotedBody t).OneLine := by
  fun_induction quotedBody t with
  | case1 => exact oneLine_nil
  | case2 u => exact oneLine_quotedUnit u
  | case3 u v rest hp ih =>
    rw [Bool.and_eq_true] at hp
    refine ⟨(isPaired_of_high_low hp.1 hp.2 _).trans ih.paired, ?_⟩
    refine List.forall_mem_cons.2 ⟨?_, List.forall_mem_cons.2 ⟨?_, ih.printable⟩⟩
    · exact UInt16.le_trans (by decide) (le_of_isHalf (isHalf_of_isHigh hp.1))
    · exact UInt16.le_trans (by decide) (le_of_isHalf (isHalf_of_isLow hp.2))
  | case4 u v rest hp ih => exact (oneLine_quotedUnit u).append ih

theorem oneLine_quoted (t : Text) : (quoted t).OneLine :=
  .cons (by decide) ((oneLine_quotedBody t).append (.cons (by decide) oneLine_nil))

theorem oneLine_listed {parts : List Text} (h : ∀ t ∈ parts, t.OneLine) :
    (listed parts).OneLine := by
  refine .cons (by decide) (.append (.join ?_ h) ?_)
  · exact .cons (by decide) oneLine_nil
  · exact .cons (by decide) oneLine_nil

end Text

namespace Value

namespace Json

open Text

theorem hexUnit?_hexDigit (u : UInt16) :
    hexUnit? (hexDigit (u.toNat / 0x1000)) (hexDigit (u.toNat / 0x100 % 0x10))
      (hexDigit (u.toNat / 0x10 % 0x10)) (hexDigit (u.toNat % 0x10)) = some u := by
  have hu := u.toNat_lt
  have hvalue : ((u.toNat / 0x1000 * 0x10 + u.toNat / 0x100 % 0x10) * 0x10 +
      u.toNat / 0x10 % 0x10) * 0x10 + u.toNat % 0x10 = u.toNat := by omega
  unfold hexUnit?
  rw [hexValue?_hexDigit _ (by omega), hexValue?_hexDigit _ (by omega),
    hexValue?_hexDigit _ (by omega), hexValue?_hexDigit _ (by omega)]
  exact congrArg some ((congrArg Nat.toUInt16 hvalue).trans UInt16.ofNat_toNat)

def withUnit (u : UInt16) (read : Option (Text × Text)) : Option (Text × Text) :=
  read.map fun x => (u :: x.1, x.2)

theorem readText_quote (rest : Text) : readText isQuotable (quote :: rest) = some ([], rest) := by
  rw [readText.eq_def]
  exact if_pos rfl

theorem readText_letter {letter u : UInt16} (h : IsLetterFor letter u) (rest : Text) :
    readText isQuotable (backslash :: letter :: rest) = withUnit u (readText isQuotable rest) := by
  rw [readText.eq_def]
  dsimp only
  rw [if_neg (by decide), if_pos rfl]
  rw [if_neg h.not_hex, h.escaped]
  cases readText isQuotable rest <;> rfl

theorem readText_hexEscape (u : UInt16) (rest : Text) :
    readText isQuotable (hexEscape u ++ rest) = withUnit u (readText isQuotable rest) := by
  rw [hexEscape]
  simp only [List.cons_append, List.nil_append]
  rw [readText.eq_def]
  dsimp only
  rw [if_neg (by decide), if_pos rfl]
  rw [if_pos rfl, hexUnit?_hexDigit]
  cases readText isQuotable rest <;> rfl

theorem readText_self {u : UInt16} (hquote : u ≠ quote) (hbackslash : u ≠ backslash)
    (hu : 0x20 ≤ u) (rest : Text) :
    readText isQuotable (u :: rest) = withUnit u (readText isQuotable rest) := by
  rw [readText.eq_def]
  dsimp only
  rw [if_neg hquote, if_neg hbackslash, if_pos (by simpa [isQuotable] using hu)]
  cases readText isQuotable rest <;> rfl

/-- What is written for a unit is read as that unit. -/
theorem readText_quotedUnit (u : UInt16) (rest : Text) :
    readText isQuotable (quotedUnit u ++ rest) = withUnit u (readText isQuotable rest) := by
  rcases quotedUnit_cases u with ⟨letter, hletter, h⟩ | h | ⟨⟨hquote, hbackslash, hplain⟩, h⟩
  · rw [h]
    exact readText_letter hletter rest
  · rw [h]
    exact readText_hexEscape u rest
  · rw [h]
    exact readText_self hquote hbackslash (isPlain_iff.1 hplain).1 rest

theorem readText_half {u : UInt16} (hu : isHalf u) (rest : Text) :
    readText isQuotable (u :: rest) = withUnit u (readText isQuotable rest) := by
  apply readText_self
  · rintro rfl
    exact not_isHalf_quote hu
  · rintro rfl
    exact absurd hu (by decide)
  · exact UInt16.le_trans (by decide) (le_of_isHalf hu)

theorem readText_quotedBody (t rest : Text) :
    readText isQuotable (quotedBody t ++ quote :: rest) = some (t, rest) := by
  fun_induction quotedBody t with
  | case1 => exact readText_quote rest
  | case2 u =>
    rw [readText_quotedUnit, readText_quote]
    rfl
  | case3 u v t hp ih =>
    -- The reader does not know that the two units belong together.
    rw [Bool.and_eq_true] at hp
    rw [List.cons_append, List.cons_append, readText_half (isHalf_of_isHigh hp.1),
      readText_half (isHalf_of_isLow hp.2), ih]
    rfl
  | case4 u v t hp ih =>
    rw [List.append_assoc, readText_quotedUnit, ih]
    rfl

theorem skipGap_of_not_isGap {u : UInt16} (h : ¬isGap u) (t : Text) : skipGap (u :: t) = u :: t :=
  List.dropWhile_cons_of_neg h

theorem quoted_append (t rest : Text) :
    quoted t ++ rest = quote :: (quotedBody t ++ quote :: rest) := by
  simp [quoted]

theorem readValue_quoted (budget : Nat) (t rest : Text) :
    readValue (budget + 1) (quoted t ++ rest) = some (.text t, rest) := by
  rw [quoted_append, readValue, skipGap_of_not_isGap (by decide)]
  dsimp only
  rw [if_pos rfl, readText_quotedBody]
  rfl

theorem readItems_of_comma {budget : Nat} {t rest : Text} {v : Value}
    (h : readValue budget t = some (v, 0x2C :: rest)) :
    readItems (budget + 1) t = (readItems budget rest).map fun x => (v :: x.1, x.2) := by
  rw [readItems, h]
  dsimp only
  rw [skipGap_of_not_isGap (by decide)]
  rfl

theorem readItems_of_bracket {budget : Nat} {t rest : Text} {v : Value}
    (h : readValue budget t = some (v, 0x5D :: rest)) :
    readItems (budget + 1) t = some ([v], rest) := by
  rw [readItems, h]
  dsimp only
  rw [skipGap_of_not_isGap (by decide)]
  rfl

theorem join_quoted_cons (t : Text) (ts : List Text) (rest : Text) :
    join [0x2C] ((t :: ts).map quoted) ++ rest =
      quoted t ++ if ts = [] then rest else 0x2C :: (join [0x2C] (ts.map quoted) ++ rest) := by
  cases ts with
  | nil => rfl
  | cons t' ts => simp [join]

/-- Quoted texts up to a closing bracket are read one by one. Each of them takes one step, and the
last one leaves a step for its own text. -/
theorem readItems_join {budget : Nat} {ts : List Text} (hts : ts ≠ []) (h : ts.length < budget)
    (rest : Text) :
    readItems budget (join [0x2C] (ts.map quoted) ++ 0x5D :: rest) = some (ts.map .text, rest) := by
  induction ts generalizing budget with
  | nil => exact absurd rfl hts
  | cons t ts ih =>
    rw [List.length_cons] at h
    obtain ⟨budget, rfl⟩ : ∃ b, budget = b + 2 := ⟨budget - 2, by omega⟩
    rw [join_quoted_cons]
    split_ifs with hlast
    · rw [hlast, readItems_of_bracket (readValue_quoted budget t _)]
      rfl
    · rw [readItems_of_comma (readValue_quoted budget t _), ih hlast (by omega)]
      rfl

theorem length_le_length_join (ts : List Text) :
    ts.length ≤ (join [0x2C] (ts.map quoted)).length := by
  induction ts with
  | nil => exact Nat.le_refl 0
  | cons t ts ih =>
    have hcons := congrArg List.length (join_quoted_cons t ts [])
    rw [List.append_nil, quoted_append] at hcons
    split_ifs at hcons with hlast
    · rw [hcons, hlast]
      exact Nat.succ_le_succ (Nat.zero_le _)
    · simp only [List.append_nil, List.length_cons, List.length_append] at hcons ⊢
      omega

theorem readValue_of_readItems {budget : Nat} {t rest : Text} {items : List Value}
    (h : readItems budget (quote :: t) = some (items, rest)) :
    readValue (budget + 1) (0x5B :: quote :: t) = some (.list items, rest) := by
  rw [readValue, skipGap_of_not_isGap (by decide)]
  dsimp only
  rw [if_neg (by decide), if_pos rfl, skipGap_of_not_isGap (by decide), h]
  rfl

theorem read_listed (ts : List Text) :
    read (listed (ts.map quoted)) = some (.list (ts.map .text)) := by
  cases ts with
  | nil => rfl
  | cons t ts =>
    obtain ⟨body, hbody⟩ : ∃ body, join [0x2C] ((t :: ts).map quoted) ++ [0x5D] = quote :: body :=
      ⟨_, (join_quoted_cons t ts [0x5D]).trans (quoted_append t _)⟩
    have hlisted : listed ((t :: ts).map quoted) = 0x5B :: quote :: body :=
      congrArg (0x5B :: ·) hbody
    have hlength : (t :: ts).length < 2 * (listed ((t :: ts).map quoted)).length := by
      have hjoin := length_le_length_join (t :: ts)
      simp only [listed, List.length_cons, List.length_append] at hjoin ⊢
      omega
    have hitems := readItems_join (List.cons_ne_nil t ts) hlength []
    rw [hbody, hlisted] at hitems
    rw [read, hlisted, readValue_of_readItems hitems]
    rfl

end Json

theorem written_texts (ts : List Text) :
    (list (ts.map text)).written = Text.listed (ts.map Text.quoted) := by
  rw [written, writtenItems_eq_map, List.map_map]
  rfl

theorem oneLine_written_texts (ts : List Text) : (list (ts.map text)).written.OneLine := by
  rw [written_texts]
  apply Text.oneLine_listed
  intro t ht
  obtain ⟨t, -, rfl⟩ := List.mem_map.1 ht
  exact Text.oneLine_quoted t

theorem read_written_texts (ts : List Text) :
    Json.read (list (ts.map text)).written = some (list (ts.map text)) := by
  rw [written_texts, Json.read_listed]

theorem eq_of_written_texts {ts ts' : List Text}
    (h : (list (ts'.map text)).written = (list (ts.map text)).written) : ts' = ts := by
  have hread := (read_written_texts ts').symm.trans ((congrArg Json.read h).trans
    (read_written_texts ts))
  have hinjective : Function.Injective text := fun _ _ => text.inj
  exact List.map_injective_iff.2 hinjective (list.inj (Option.some.inj hread))

end Value

namespace Invocation

theorem Asks.out_run {argv : List Text} {a : Arguments} (ha : Asks argv a) {h : Host}
    {ts : List Text}
    (htokens : tokens a (Loaded.ofHost h).1.settings h.env h.ignoreCase = .ok ts) (s : Store) :
    (run argv h s).1.out = printed a.json ts := by
  obtain ⟨hread, hhelp, hwords⟩ := ha
  have hreply := congrArg Prod.snd (reply_run argv h s)
  simpa [reply, hread, hhelp, hwords, htokens, answer] using hreply

/-- A run that prints its tokens as a list prints one line: every half in it stands in a pair, no
unit of it breaks the line, and it is read back as the list of these tokens. No other tokens are
printed like that. -/
theorem run_json_reads_back {argv : List Text} {a : Arguments} (ha : Asks argv a) (hjson : a.json)
    {h : Host} {ts : List Text}
    (htokens : tokens a (Loaded.ofHost h).1.settings h.env h.ignoreCase = .ok ts) (s : Store) :
    ∃ line, (run argv h s).1.out = [line] ∧ line = (Value.list (ts.map .text)).written ∧
      line.isPaired ∧ (∀ u ∈ line, 0x20 ≤ u) ∧
      Value.Json.read line = some (.list (ts.map .text)) ∧
      ∀ ts', printed true ts' = (run argv h s).1.out → ts' = ts := by
  have hout : (run argv h s).1.out = printed true ts := hjson ▸ ha.out_run htokens s
  have hline := Value.oneLine_written_texts ts
  refine ⟨_, hout, rfl, hline.paired, hline.printable, Value.read_written_texts ts, ?_⟩
  intro ts' hsame
  exact Value.eq_of_written_texts (List.cons.inj (hsame.trans hout)).1

/-- Units of every kind that the writer knows: quote, backslash, a control unit with a letter and
one without, a pair, and the halves of a pair the wrong way round. -/
def mixedUnits : Text :=
  [Text.quote, Text.backslash, Text.newline, 0x1F, 0xD83D, 0xDE00, 0xDE00, 0xD83D]

/-- An empty token, and one of mixed units that a variable brings in. -/
theorem run_json_mixedUnits :
    (run ["--json", "-D", Text.ofString "X=" ++ mixedUnits, "\"\" %X%"] plainHost {}).1.out =
      [Text.ofString "[\"\",\"\\\"\\\\\\n\\u001f" ++ [0xD83D, 0xDE00] ++
        Text.ofString "\\ude00\\ud83d\"]"] ∧
    Value.Json.read (Text.ofString "[\"\",\"\\\"\\\\\\n\\u001f" ++ [0xD83D, 0xDE00] ++
        Text.ofString "\\ude00\\ud83d\"]") = some (.list [.text [], .text mixedUnits]) := by
  have hread : Arguments.read ["--json", "-D", Text.ofString "X=" ++ mixedUnits, "\"\" %X%"] =
      .ok { json := true, defines := Table.ofList [("X", mixedUnits)], words := ["\"\" %X%"] } := by
    rfl
  have htokens : tokens
      { json := true, defines := Table.ofList [("X", mixedUnits)], words := ["\"\" %X%"] }
      (Loaded.ofHost plainHost).1.settings plainHost.env plainHost.ignoreCase =
        .ok [[], mixedUnits] := by
    rfl
  obtain ⟨line, hout, hline, -, -, hback, -⟩ :=
    run_json_reads_back ⟨hread, rfl, by decide⟩ rfl htokens {}
  obtain rfl : line = Text.ofString "[\"\",\"\\\"\\\\\\n\\u001f" ++ [0xD83D, 0xDE00] ++
      Text.ofString "\\ude00\\ud83d\"]" := by
    rw [hline]
    decide +kernel
  exact ⟨hout, hback⟩

end Invocation

end CommandText
