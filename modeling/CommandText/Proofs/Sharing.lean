import CommandText.Proofs.AllOrNothing
import CommandText.Proofs.History

/-!
# Invocations that share a store

An invocation uses the store like everybody else: it asks for a load, and then reads one setting
after another, each by a request that would load by itself if it found nothing. `Invocation.steps`
goes through these requests one by one, on the variables that the store is kept in and that any
requests and invocations may have written to before. It comes to the same as `Invocation.run`: the
load overwrites whatever the variables held, and every read that follows finds what was loaded.
Nothing of the history gets into the report, and what is left behind is what the load alone leaves
behind.
-/

namespace CommandText

namespace Invocation

/-- The variables of the shared store and what has been written so far. -/
structure Progress where
  registers : Registers
  lines : List Line

def use (home : Host) (r : Store.Request) : StateM Progress Unit := fun p =>
  ((), ⟨(p.registers.handle home r).1, p.lines ++ (p.registers.handle home r).2.map .warning⟩)

def ask (home : Host) : StateM Progress Registers := do
  use home .read
  return (← get).registers

/-- A switch that is on already is not asked for, else it has to be set to on. -/
def askUnless (on : Bool) (home : Host) (w : Switch) : StateM Progress Bool :=
  if on then pure true else do return (← ask home).settings.switch? w == some true

/-- A switch that is off already is not asked for, else it must not be set to off. -/
def askIf (on : Bool) (home : Host) (w : Switch) : StateM Progress Bool :=
  if on then do return (← ask home).settings.switch? w != some false else pure false

def write (line : Line) : StateM Progress Unit :=
  modify fun p => { p with lines := p.lines ++ [line] }

def remark (verbose : Bool) (message : StateM Progress Text) : StateM Progress Unit :=
  if verbose then do write (.err (← message)) else pure ()

def conclude (verbose json : Bool) (env : Environment) :
    Except Rejection (List Text) → StateM Progress Nat
  | .error r => do
    write (.err (Diagnostic.render (Diagnostic.colorsEnabled env) r))
    return exitMalformed
  | .ok tokens => do
    remark verbose (pure (countLine tokens.length))
    (printed json tokens).forM fun t => write (.out t)
    return exitOk

/-- Splits the text with the settings that are read on the way. -/
def splitSteps (home : Host) (a : Arguments) (env : Environment) (ignoreCase : Bool) :
    StateM Progress Nat := do
  let verbose ← askUnless a.verbose home .debug
  let preserveQuotes ← askUnless a.preserveQuotes home .preserveQuotes
  let useEnv ← askIf a.useEnv home .useEnv
  remark verbose do return configLine (← ask home).path
  let known ← ask home
  let lookup := Lookup.chain [
    Lookup.ofTable a.defines,
    Lookup.ofRecord (known.settings.bindings.getD ∅),
    if useEnv then Lookup.ofEnvironment env ignoreCase else Lookup.none
  ]
  conclude verbose a.json env (tokenize lookup preserveQuotes (commandText a))

def refuseSteps (e : UsageError) : StateM Progress Nat := do
  write (.err e.message)
  write (.err usage)
  return exitUsage

/-- Runs an invocation on a host, step by step, in a program that itself runs at home. -/
def steps (home : Host) (argv : List Text) (h : Host) : StateM Progress Nat :=
  match Arguments.read argv with
  | .error e => refuseSteps e
  | .ok a =>
    if a.help then do
      write (.out help)
      return exitOk
    else if a.words = [] then refuseSteps .missingText
    else do
      use home (.load h)
      splitSteps home a h.env h.ignoreCase

section

variable {α β : Type}

theorem bind_apply (x : StateM Progress α) (f : α → StateM Progress β) (p : Progress) :
    (x >>= f) p = f (x p).1 (x p).2 := rfl

theorem pure_apply (v : α) (p : Progress) : (pure v : StateM Progress α) p = (v, p) := rfl

end

theorem write_apply (line : Line) (p : Progress) :
    write line p = ((), ⟨p.registers, p.lines ++ [line]⟩) := rfl

theorem forM_write_apply (ts : List Text) (p : Progress) :
    (ts.forM fun t => write (.out t)) p = ((), ⟨p.registers, p.lines ++ ts.map .out⟩) := by
  induction ts generalizing p with
  | nil => simp [List.forM_nil, pure_apply]
  | cons t ts ih =>
    refine (ih ⟨p.registers, p.lines ++ [.out t]⟩).trans ?_
    simp

theorem remark_apply {message : StateM Progress Text} {t : Text} {p : Progress}
    (h : message p = (t, p)) (verbose : Bool) :
    remark verbose message p =
      ((), ⟨p.registers, p.lines ++ if verbose then [Line.err t] else []⟩) := by
  unfold remark
  cases verbose with
  | false => simp [pure_apply]
  | true => simp [bind_apply, h, write_apply]

section

variable {home : Host} {l : Loaded} {lines : List Line}

theorem ask_apply : ask home ⟨.ofStore ⟨some l⟩, lines⟩ =
    (.ofStore ⟨some l⟩, ⟨.ofStore ⟨some l⟩, lines⟩) := by
  have hlines : lines ++ [] = lines := List.append_nil lines
  exact congrArg (fun lines => (_, Progress.mk _ lines)) hlines

theorem askUnless_apply (on : Bool) (w : Switch) :
    askUnless on home w ⟨.ofStore ⟨some l⟩, lines⟩ =
      (on || l.settings.switch w, ⟨.ofStore ⟨some l⟩, lines⟩) := by
  cases on with
  | true => rfl
  | false =>
    refine (bind_apply (ask home) _ _).trans ?_
    rw [ask_apply, pure_apply]
    simp only [Registers.ofStore, Effective.switch?_toSettings]
    cases l.settings.switch w <;> rfl

theorem askIf_apply (on : Bool) (w : Switch) :
    askIf on home w ⟨.ofStore ⟨some l⟩, lines⟩ =
      (on && l.settings.switch w, ⟨.ofStore ⟨some l⟩, lines⟩) := by
  cases on with
  | true =>
    refine (bind_apply (ask home) _ _).trans ?_
    rw [ask_apply, pure_apply]
    simp only [Registers.ofStore, Effective.switch?_toSettings]
    cases l.settings.switch w <;> rfl
  | false => rfl

/-- Behind a load, the steps come to splitting with what was loaded. -/
theorem splitSteps_apply (a : Arguments) (env : Environment) (ignoreCase : Bool) :
    splitSteps home a env ignoreCase ⟨.ofStore ⟨some l⟩, lines⟩ =
      ((split a l env ignoreCase).code,
        ⟨.ofStore ⟨some l⟩, lines ++ (split a l env ignoreCase).lines⟩) := by
  have hpath : (do return configLine (← ask home).path : StateM Progress Text)
      ⟨.ofStore ⟨some l⟩, lines⟩ = (configLine l.path, ⟨.ofStore ⟨some l⟩, lines⟩) := by
    rw [bind_apply, ask_apply]
    rfl
  unfold splitSteps
  simp only [bind_apply, askUnless_apply, askIf_apply, remark_apply hpath, ask_apply]
  change conclude (a.verbose || l.settings.debug) a.json env (tokens a l.settings env ignoreCase)
    ⟨.ofStore ⟨some l⟩,
      lines ++ if a.verbose || l.settings.debug then [Line.err (configLine l.path)] else []⟩ = _
  unfold split
  cases tokens a l.settings env ignoreCase with
  | error r => simp only [conclude, bind_apply, write_apply, pure_apply, List.append_assoc]
  | ok ts =>
    simp only [conclude, bind_apply, remark_apply (pure_apply _ _), forM_write_apply, pure_apply,
      List.append_assoc]

end

/-- The steps do to the variables what a run does to the store, and they write its report. -/
theorem steps_ofStore (home : Host) (argv : List Text) (h : Host) (s : Store) :
    steps home argv h ⟨.ofStore s, []⟩ =
      ((run argv h s).1.code, ⟨.ofStore (run argv h s).2, (run argv h s).1.lines⟩) := by
  unfold steps run
  cases Arguments.read argv with
  | error e => rfl
  | ok a =>
    dsimp only
    split_ifs
    · rfl
    · rfl
    · rw [bind_apply, use, Registers.handle_ofStore]
      exact splitSteps_apply a h.env h.ignoreCase

/-- A request from outside, or an invocation in a program that runs at home. -/
inductive Event where
  | call (c : Store.Call)
  | invocation (home : Host) (argv : List Text) (h : Host)

def Event.store (s : Store) : Event → Store
  | .call c => (s.handle c.home c.request).1
  | .invocation _ argv h => (run argv h s).2

/-- The variables behind an event. -/
def Event.registers (r : Registers) : Event → Registers
  | .call c => (r.handle c.home c.request).1
  | .invocation home argv h => (steps home argv h ⟨r, []⟩).2.registers

theorem Event.registers_ofStore (s : Store) (e : Event) :
    e.registers (.ofStore s) = .ofStore (e.store s) := by
  cases e with
  | call c => exact congrArg Prod.fst (Registers.handle_ofStore c.home s c.request)
  | invocation home argv h =>
    exact congrArg (fun outcome => outcome.2.registers) (steps_ofStore home argv h s)

def reachedStore (events : List Event) : Store := events.foldl Event.store {}

/-- The variables behind a history. -/
def reached (events : List Event) : Registers := events.foldl Event.registers {}

theorem reached_eq (events : List Event) : reached events = .ofStore (reachedStore events) := by
  have hfold (s : Store) :
      events.foldl Event.registers (.ofStore s) = .ofStore (events.foldl Event.store s) := by
    induction events generalizing s with
    | nil => rfl
    | cons e events ih =>
      rw [List.foldl_cons, List.foldl_cons, e.registers_ofStore]
      exact ih (e.store s)
  exact hfold {}

/-- The arguments are refused or ask for the help. -/
def Stops (argv : List Text) : Prop := (∃ e, Refuses argv e) ∨ Helps argv

theorem Asks.not_stops {argv : List Text} {a : Arguments} (ha : Asks argv a) : ¬Stops argv := by
  obtain ⟨hread, hhelp, hwords⟩ := ha
  rintro (⟨e, hread' | ⟨-, a', hread', -, hwords'⟩⟩ | ⟨a', hread', hhelp'⟩)
  · rw [hread] at hread'
    cases hread'
  · obtain rfl : a = a' := Except.ok.inj (hread.symm.trans hread')
    exact hwords hwords'
  · obtain rfl : a = a' := Except.ok.inj (hread.symm.trans hread')
    exact Bool.false_ne_true (hhelp.symm.trans hhelp')

theorem report_run (argv : List Text) (h : Host) (s s' : Store) :
    (run argv h s).1 = (run argv h s').1 := by
  unfold run
  cases Arguments.read argv with
  | error e => rfl
  | ok a =>
    dsimp only
    split_ifs <;> rfl

/-- Whatever requests and invocations came before, an invocation answers and writes what it would on
fresh variables. It leaves the variables as they were if it is refused or shows the help, and
otherwise leaves them as a load alone does. All this is what a run says about the store behind the
same history. -/
theorem steps_ignore_history (events : List Event) (home home' : Host) (argv : List Text)
    (h : Host) :
    (steps home argv h ⟨reached events, []⟩).1 = (steps home' argv h ⟨{}, []⟩).1 ∧
    (steps home argv h ⟨reached events, []⟩).2.lines = (steps home' argv h ⟨{}, []⟩).2.lines ∧
    (Stops argv ∧ (steps home argv h ⟨reached events, []⟩).2.registers = reached events ∨
      ¬Stops argv ∧ (steps home argv h ⟨reached events, []⟩).2.registers =
        (Registers.handle home' {} (.load h)).1) ∧
    steps home argv h ⟨reached events, []⟩ =
      ((run argv h (reachedStore events)).1.code,
        ⟨.ofStore (run argv h (reachedStore events)).2,
          (run argv h (reachedStore events)).1.lines⟩) := by
  have hfresh : steps home' argv h ⟨{}, []⟩ =
      ((run argv h {}).1.code, ⟨.ofStore (run argv h {}).2, (run argv h {}).1.lines⟩) :=
    steps_ofStore home' argv h {}
  have hsteps := steps_ofStore home argv h (reachedStore events)
  have hreport := report_run argv h (reachedStore events) {}
  rw [← reached_eq] at hsteps
  refine ⟨?_, ?_, ?_, hsteps⟩
  · rw [hsteps, hfresh, hreport]
  · rw [hsteps, hfresh, hreport]
  · rw [hsteps, reached_eq]
    rcases run_cases argv h (reachedStore events) with ⟨e, he, hrun⟩ | ⟨hhelps, hrun⟩ | ⟨a, ha, hrun⟩
    · exact .inl ⟨.inl ⟨e, he⟩, by rw [hrun]⟩
    · exact .inl ⟨.inr hhelps, by rw [hrun]⟩
    · refine .inr ⟨ha.not_stops, ?_⟩
      rw [hrun]
      exact (congrArg Prod.fst (Registers.load_eq {} h)).symm

end Invocation

end CommandText
