import CommandText.Proofs.Ending
import CommandText.Proofs.References
import CommandText.Proofs.Sources

/-!
# All or nothing

An invocation has one of four fates: it is refused, it shows the help, its text is rejected, or its
text is split. Exit code, results and messages go with the fate as a whole, so nothing is written as
a result before a failure, and no message takes the place of a result. The words about the run that
verbosity adds are messages only.
-/

namespace CommandText

namespace Report

theorem err_warnings_append (code : Nat) (warnings : List Warning) (lines : List Line) :
    err ⟨code, warnings.map .warning ++ lines⟩ = err ⟨code, lines⟩ := by
  induction warnings with
  | nil => rfl
  | cons w warnings ih => exact ih

theorem err_map_out (code : Nat) (results : List Text) : err ⟨code, results.map .out⟩ = [] := by
  induction results with
  | nil => rfl
  | cons t results ih => exact ih

theorem err_err_append (code : Nat) (b : Bool) (t : Text) (lines : List Line) :
    err ⟨code, (if b then [Line.err t] else []) ++ lines⟩ =
      (if b then [t] else []) ++ err ⟨code, lines⟩ := by
  cases b <;> rfl

end Report

namespace Invocation

/-- The arguments cannot be read, or they ask for nothing. -/
def Refuses (argv : List Text) (e : UsageError) : Prop :=
  Arguments.read argv = .error e ∨
    e = .missingText ∧ ∃ a, Arguments.read argv = .ok a ∧ a.help = false ∧ a.words = []

/-- The arguments ask for the help. -/
def Helps (argv : List Text) : Prop := ∃ a, Arguments.read argv = .ok a ∧ a.help = true

/-- The arguments ask for the tokens of their words. -/
def Asks (argv : List Text) (a : Arguments) : Prop :=
  Arguments.read argv = .ok a ∧ a.help = false ∧ a.words ≠ []

/-- A run refuses or helps without touching the store, or it loads settings and splits the text. -/
theorem run_cases (argv : List Text) (h : Host) (s : Store) :
    (∃ e, Refuses argv e ∧ run argv h s = (refuse e, s)) ∨
    Helps argv ∧ run argv h s = (⟨exitOk, [.out help]⟩, s) ∨
    ∃ a, Asks argv a ∧ run argv h s =
      (⟨(split a (Loaded.ofHost h).1 h.env h.ignoreCase).code,
        (Loaded.ofHost h).2.map .warning ++ (split a (Loaded.ofHost h).1 h.env h.ignoreCase).lines⟩,
        ⟨some (Loaded.ofHost h).1⟩) := by
  unfold run
  cases hread : Arguments.read argv with
  | error e => exact .inl ⟨e, .inl hread, rfl⟩
  | ok a =>
    dsimp only
    split_ifs with hhelp hwords
    · exact .inr (.inl ⟨⟨a, hread, hhelp⟩, rfl⟩)
    · exact .inl ⟨.missingText, .inr ⟨rfl, a, hread, by simpa using hhelp, hwords⟩, rfl⟩
    · exact .inr (.inr ⟨a, ⟨hread, by simpa using hhelp, hwords⟩, rfl⟩)

/-- Exit code and results that go with the outcome of splitting. -/
def answer (json : Bool) : Except Rejection (List Text) → Nat × List Text
  | .error _ => (exitMalformed, [])
  | .ok tokens => (exitOk, printed json tokens)

theorem answer_split (a : Arguments) (l : Loaded) (env : Environment) (ignoreCase : Bool) :
    ((split a l env ignoreCase).code, (split a l env ignoreCase).out) =
      answer a.json (tokens a l.settings env ignoreCase) := by
  unfold split
  cases tokens a l.settings env ignoreCase with
  | error r =>
    dsimp only
    rw [Report.out_err_append]
    rfl
  | ok ts =>
    dsimp only
    rw [List.append_assoc, Report.out_err_append, Report.out_err_append, Report.out_map_out]
    rfl

theorem err_split_of_error {a : Arguments} {l : Loaded} {env : Environment} {ignoreCase : Bool}
    {r : Rejection} (h : tokens a l.settings env ignoreCase = .error r) :
    (split a l env ignoreCase).err =
      (if a.verbose || l.settings.debug then [configLine l.path] else []) ++
        [Diagnostic.render (Diagnostic.colorsEnabled env) r] := by
  unfold split
  rw [h]
  dsimp only
  rw [Report.err_err_append]
  rfl

theorem err_split_of_ok {a : Arguments} {l : Loaded} {env : Environment} {ignoreCase : Bool}
    {ts : List Text} (h : tokens a l.settings env ignoreCase = .ok ts) :
    (split a l env ignoreCase).err =
      if a.verbose || l.settings.debug then [configLine l.path, countLine ts.length] else [] := by
  unfold split
  rw [h]
  dsimp only
  rw [List.append_assoc, Report.err_err_append, Report.err_err_append, Report.err_map_out]
  cases a.verbose || l.settings.debug <;> rfl

inductive Fate where
  | refused
  | helped
  | rejected
  | accepted

/-- What a fate comes with: why it comes about, the exit code, the results and the messages. -/
def Meets (argv : List Text) (h : Host) (r : Report) : Fate → Prop
  | .refused => ∃ e, Refuses argv e ∧ r.code = 2 ∧ r.out = [] ∧ r.err = [e.message, usage]
  | .helped => Helps argv ∧ r.code = 0 ∧ r.out = [help] ∧ r.err = []
  | .rejected => ∃ a rejection, Asks argv a ∧
      tokenize (lookup a (Loaded.ofHost h).1.settings h.env h.ignoreCase)
        (a.preserveQuotes || (Loaded.ofHost h).1.settings.preserveQuotes)
        (Text.join [Text.space] a.words) = .error rejection ∧
      r.code = 1 ∧ r.out = [] ∧
      r.err = (if a.verbose || (Loaded.ofHost h).1.settings.debug
          then [configLine (Loaded.ofHost h).1.path] else []) ++
        [Diagnostic.render (Diagnostic.colorsEnabled h.env) rejection]
  | .accepted => ∃ a ts, Asks argv a ∧
      tokenize (lookup a (Loaded.ofHost h).1.settings h.env h.ignoreCase)
        (a.preserveQuotes || (Loaded.ofHost h).1.settings.preserveQuotes)
        (Text.join [Text.space] a.words) = .ok ts ∧
      r.code = 0 ∧ r.out = (if a.json then [(Value.list (ts.map .text)).written] else ts) ∧
      r.err = if a.verbose || (Loaded.ofHost h).1.settings.debug
        then [configLine (Loaded.ofHost h).1.path, countLine ts.length] else []

def Fate.ofTokens : Except Rejection (List Text) → Fate
  | .error _ => rejected
  | .ok _ => accepted

def fate (argv : List Text) (h : Host) : Fate :=
  match Arguments.read argv with
  | .error _ => .refused
  | .ok a =>
    if a.help then .helped
    else if a.words = [] then .refused
    else .ofTokens (tokens a (Loaded.ofHost h).1.settings h.env h.ignoreCase)

theorem Asks.fate_eq {argv : List Text} {a : Arguments} (ha : Asks argv a) (h : Host) :
    fate argv h = .ofTokens (tokens a (Loaded.ofHost h).1.settings h.env h.ignoreCase) := by
  obtain ⟨hread, hhelp, hwords⟩ := ha
  unfold fate
  rw [hread]
  simp [hhelp, hwords]

theorem eq_fate_of_meets {argv : List Text} {h : Host} {r : Report} {f : Fate}
    (hmeets : Meets argv h r f) : f = fate argv h := by
  cases f with
  | refused =>
    obtain ⟨e, hread | ⟨-, a, hread, hhelp, hwords⟩, -⟩ := hmeets
    · unfold fate
      rw [hread]
    · unfold fate
      rw [hread]
      simp [hhelp, hwords]
  | helped =>
    obtain ⟨⟨a, hread, hhelp⟩, -⟩ := hmeets
    unfold fate
    rw [hread]
    simp [hhelp]
  | rejected =>
    obtain ⟨a, rejection, ha, htokens, -⟩ := hmeets
    rw [ha.fate_eq, tokens, commandText, htokens]
    rfl
  | accepted =>
    obtain ⟨a, ts, ha, htokens, -⟩ := hmeets
    rw [ha.fate_eq, tokens, commandText, htokens]
    rfl

theorem exists_meets_run (argv : List Text) (h : Host) (s : Store) :
    ∃ f, Meets argv h (run argv h s).1 f := by
  rcases run_cases argv h s with ⟨e, he, hrun⟩ | ⟨hhelps, hrun⟩ | ⟨a, ha, hrun⟩
  · rw [hrun]
    exact ⟨.refused, e, he, rfl, rfl, rfl⟩
  · rw [hrun]
    exact ⟨.helped, hhelps, rfl, rfl, rfl⟩
  · have hanswer := answer_split a (Loaded.ofHost h).1 h.env h.ignoreCase
    rw [hrun]
    cases htokens : tokens a (Loaded.ofHost h).1.settings h.env h.ignoreCase with
    | error rejection =>
      rw [htokens] at hanswer
      obtain ⟨hcode, hout⟩ := Prod.mk.inj hanswer
      refine ⟨.rejected, a, rejection, ha, htokens, hcode, ?_, ?_⟩
      · exact (Report.out_warnings_append _ _ _).trans hout
      · exact (Report.err_warnings_append _ _ _).trans (err_split_of_error htokens)
    | ok ts =>
      rw [htokens] at hanswer
      obtain ⟨hcode, hout⟩ := Prod.mk.inj hanswer
      refine ⟨.accepted, a, ts, ha, htokens, hcode, ?_, ?_⟩
      · exact (Report.out_warnings_append _ _ _).trans hout
      · exact (Report.err_warnings_append _ _ _).trans (err_split_of_ok htokens)

/-- Exit code and results, as they follow from the arguments and from how their text is split. -/
def reply (read : Except UsageError Arguments)
    (split : Arguments → Except Rejection (List Text)) : Nat × List Text :=
  match read with
  | .error _ => (exitUsage, [])
  | .ok a =>
    if a.help then (exitOk, [help])
    else if a.words = [] then (exitUsage, [])
    else answer a.json (split a)

theorem reply_run (argv : List Text) (h : Host) (s : Store) :
    ((run argv h s).1.code, (run argv h s).1.out) =
      reply (Arguments.read argv) fun a =>
        tokens a (Loaded.ofHost h).1.settings h.env h.ignoreCase := by
  unfold run reply
  cases Arguments.read argv with
  | error e => rfl
  | ok a =>
    dsimp only
    split_ifs
    · rfl
    · rfl
    · rw [← answer_split, Report.out_warnings_append]

end Invocation

/-- The arguments without their wish for words about the run. -/
def Arguments.quiet (a : Arguments) : Arguments := { a with verbose := false }

theorem Arguments.exists_eq_of_quiet {a a' : Arguments} (h : a'.quiet = a.quiet) :
    ∃ verbose, a' = { a with verbose := verbose } := by
  cases a
  cases a'
  simp_all [quiet]

/-- The settings without words about the run. -/
def Effective.quiet (e : Effective) : Effective := { e with debug := false }

theorem Effective.exists_eq_of_quiet {e e' : Effective} (h : e'.quiet = e.quiet) :
    ∃ debug, e' = { e with debug := debug } := by
  cases e
  cases e'
  simp_all [quiet]

namespace Invocation

/-- The environment itself is asked for a variable: its use is on, and neither the arguments nor the
settings have the variable. -/
def Consults (a : Arguments) (e : Effective) (name : Text) : Prop :=
  a.useEnv ∧ e.useEnv ∧ a.defines.get? name = none ∧ e.bindings.value? name = none

theorem lookup_congr (a : Arguments) (e : Effective) {env env' : Environment}
    {ignoreCase ignoreCase' : Bool} {name : Text}
    (henv : Consults a e name → Lookup.ofEnvironment env' ignoreCase' name =
      Lookup.ofEnvironment env ignoreCase name) :
    lookup a e env' ignoreCase' name = lookup a e env ignoreCase name := by
  unfold lookup Lookup.chain Lookup.ofTable Lookup.ofRecord
  simp only [List.findSome?_cons]
  cases hdefined : a.defines.get? name with
  | some v => rfl
  | none =>
    cases hheld : e.bindings.value? name with
    | some v => rfl
    | none =>
      cases huse : a.useEnv && e.useEnv with
      | false => rfl
      | true =>
        obtain ⟨harguments, hsettings⟩ := Bool.and_eq_true_iff.1 huse
        simp only [if_true, henv ⟨harguments, hsettings, hdefined, hheld⟩]

/-- Verbosity has no part in the tokens, and of the environment only those variables matter that the
text refers to and that are looked up there. -/
theorem tokens_congr {a a' : Arguments} {e e' : Effective} {env env' : Environment}
    {ignoreCase ignoreCase' : Bool} (ha : a'.quiet = a.quiet) (he : e'.quiet = e.quiet)
    (henv : ∀ name, (commandText a).RefersTo name → Consults a e name →
      Lookup.ofEnvironment env' ignoreCase' name = Lookup.ofEnvironment env ignoreCase name) :
    tokens a' e' env' ignoreCase' = tokens a e env ignoreCase := by
  obtain ⟨verbose, rfl⟩ := Arguments.exists_eq_of_quiet ha
  obtain ⟨debug, rfl⟩ := Effective.exists_eq_of_quiet he
  apply tokenize_congr
  intro name hname
  exact lookup_congr a e (henv name hname)

theorem reply_congr {read read' : Except UsageError Arguments}
    {split split' : Arguments → Except Rejection (List Text)}
    (hread : read'.map Arguments.quiet = read.map Arguments.quiet)
    (hsplit : ∀ a a', read = .ok a → a.help = false → a.words ≠ [] → a'.quiet = a.quiet →
      split' a' = split a) :
    reply read' split' = reply read split := by
  cases read with
  | error e =>
    cases read' with
    | error e' => rfl
    | ok a' => cases hread
  | ok a =>
    cases read' with
    | error e' => cases hread
    | ok a' =>
      have ha : a'.quiet = a.quiet := Except.ok.inj hread
      have hsame := hsplit a a' rfl
      obtain ⟨verbose, rfl⟩ := Arguments.exists_eq_of_quiet ha
      unfold reply
      dsimp only
      split_ifs with hhelp hwords
      · rfl
      · rfl
      · rw [hsame (by simpa using hhelp) hwords ha]

/-- Every run has exactly one of the four fates with all that goes with it. Exit code and results
are the same for two runs whose arguments differ at most in verbosity and whose settings differ at
most in the debug switch, provided that the two environments agree on the variables of the text that
are looked up in them. -/
theorem run_has_one_fate (argv : List Text) (h : Host) (s : Store) :
    (∃! f, Meets argv h (run argv h s).1 f) ∧
    ∀ (argv' : List Text) (h' : Host) (s' : Store),
      (Arguments.read argv').map Arguments.quiet = (Arguments.read argv).map Arguments.quiet →
      (Loaded.ofHost h').1.settings.quiet = (Loaded.ofHost h).1.settings.quiet →
      (∀ a name, Asks argv a → (commandText a).RefersTo name →
        Consults a (Loaded.ofHost h).1.settings name →
        Lookup.ofEnvironment h'.env h'.ignoreCase name =
          Lookup.ofEnvironment h.env h.ignoreCase name) →
      (run argv' h' s').1.code = (run argv h s).1.code ∧
        (run argv' h' s').1.out = (run argv h s).1.out := by
  constructor
  · obtain ⟨f, hf⟩ := exists_meets_run argv h s
    refine ⟨f, hf, ?_⟩
    intro g hg
    exact (eq_fate_of_meets hg).trans (eq_fate_of_meets hf).symm
  · intro argv' h' s' hread hsettings henv
    apply Prod.mk.inj
    rw [reply_run, reply_run]
    apply reply_congr hread
    intro a a' hok hhelp hwords ha
    apply tokens_congr ha hsettings
    intro name hname
    exact henv a name ⟨hok, hhelp, hwords⟩ hname

/-- A host with one variable and nothing else. -/
def plainHost : Host := ⟨.nothing, Table.ofList [("X", some "1")], false⟩

def debugHost : Host :=
  ⟨.nothing, Table.ofList [("X", some "1"), ("CMDTOK_DEBUG", some "1")], false⟩

/-- The value of a variable is printed alike with and without words about the run. -/
theorem run_verbose_debug :
    (run ["-v", "%X%"] debugHost {}).1.code = 0 ∧
      (run ["-v", "%X%"] debugHost {}).1.out = ["1"] := by
  have hread : Arguments.read ["%X%"] = .ok { words := ["%X%"] } := rfl
  have helements : Text.elements "%X%" = [.reference "X"] := by
    have hnext : Element.next? "%X%" = some (.reference "X", []) := by decide +kernel
    rw [Element.elements_of_next? hnext, Element.elements_nil]
  have henv : ∀ a name, Asks ["%X%"] a → (commandText a).RefersTo name →
      Consults a (Loaded.ofHost plainHost).1.settings name →
      Lookup.ofEnvironment debugHost.env debugHost.ignoreCase name =
        Lookup.ofEnvironment plainHost.env plainHost.ignoreCase name := by
    rintro a name ⟨hok, -⟩ hname -
    obtain rfl : { words := ["%X%"] } = a := Except.ok.inj (hread.symm.trans hok)
    have hmem : Element.reference name ∈ [Element.reference "X"] := helements ▸ hname
    obtain rfl : name = "X" := by simpa using hmem
    decide +kernel
  obtain ⟨hcode, hout⟩ :=
    (run_has_one_fate ["%X%"] plainHost {}).2 ["-v", "%X%"] debugHost {} rfl rfl henv
  rw [hcode, hout]
  decide +kernel

/-- A text that refers to the very variable by which the environment turns the debug switch on is
split differently with and without it, although nothing else among the settings differs. -/
theorem run_prints_debug_variable :
    let off : Host := ⟨.nothing, ∅, false⟩
    let on : Host := ⟨.nothing, Table.ofList [("CMDTOK_DEBUG", some "1")], false⟩
    (Loaded.ofHost on).1.settings = { (Loaded.ofHost off).1.settings with debug := true } ∧
      (run ["%CMDTOK_DEBUG%"] off {}).1.out = ["%CMDTOK_DEBUG%"] ∧
      (run ["%CMDTOK_DEBUG%"] on {}).1.out = ["1"] := by
  refine ⟨rfl, ?_, ?_⟩
  · decide +kernel
  · decide +kernel

end Invocation

end CommandText
