import CommandText.Invocation.Run
import CommandText.Proofs.Template

/-!
# How an invocation ends

Environment, files and earlier settings decide what variables stand for, whether quotes are kept and
how much is said about the run. They have no part in how the run ends: the exit code and the number
of results are computed here from the arguments alone, and every run has them. That rests on the
outline of a text, which the values only fill.
-/

namespace CommandText

structure Ending where
  code : Nat
  results : Nat

namespace Report

def ending (r : Report) : Ending := ⟨r.code, r.out.length⟩

theorem out_warnings_append (code : Nat) (warnings : List Warning) (lines : List Line) :
    out ⟨code, warnings.map .warning ++ lines⟩ = out ⟨code, lines⟩ := by
  induction warnings with
  | nil => rfl
  | cons w warnings ih => exact ih

theorem out_err_append (code : Nat) (b : Bool) (t : Text) (lines : List Line) :
    out ⟨code, (if b then [Line.err t] else []) ++ lines⟩ = out ⟨code, lines⟩ := by
  cases b <;> rfl

theorem out_map_out (code : Nat) (results : List Text) :
    out ⟨code, results.map .out⟩ = results := by
  induction results with
  | nil => rfl
  | cons t results ih => exact congrArg (List.cons t) ih

end Report

namespace Invocation

def splitEnding (a : Arguments) : Ending :=
  match Outline.ofText (commandText a) with
  | .error _ => ⟨exitMalformed, 0⟩
  | .ok tokens => ⟨exitOk, if a.json then 1 else tokens.length⟩

/-- How an invocation with the given arguments ends. -/
def ending (argv : List Text) : Ending :=
  match Arguments.read argv with
  | .error _ => ⟨exitUsage, 0⟩
  | .ok a =>
    if a.help then ⟨exitOk, 1⟩ else if a.words = [] then ⟨exitUsage, 0⟩ else splitEnding a

theorem length_printed (json : Bool) (tokens : List Text) :
    (printed json tokens).length = if json then 1 else tokens.length := by
  cases json <;> rfl

/-- Whatever settings were loaded and whatever the environment holds, the ending is the same. -/
theorem ending_split (a : Arguments) (l : Loaded) (env : Environment) (ignoreCase : Bool) :
    (split a l env ignoreCase).ending = splitEnding a := by
  unfold split splitEnding tokens
  -- Behind this step lookup and quotes are left only in what fills the outline.
  rw [tokenize_eq_fill]
  cases Outline.ofText (commandText a) with
  | error offset =>
    simp only [Outline.fill, Report.ending, Report.out_err_append]
    rfl
  | ok templates =>
    simp only [Outline.fill, Report.ending, List.append_assoc, Report.out_err_append,
      Report.out_map_out, length_printed, List.length_map]

theorem ending_run (argv : List Text) (h : Host) (s : Store) :
    (run argv h s).1.ending = ending argv := by
  unfold run ending
  cases Arguments.read argv with
  | error e => rfl
  | ok a =>
    dsimp only
    split_ifs with hhelp hwords
    · rfl
    · rfl
    · rw [← ending_split a (Loaded.ofHost h).1 h.env h.ignoreCase]
      simp only [Report.ending, Report.out_warnings_append]

/-- Two runs with the same arguments end with the same exit code and write equally many results, in
any environments, with any files found, and after any earlier settings. So do the two splits of one
text under any loaded settings, wherever these come from. -/
theorem run_ends_alike (argv : List Text) :
    (∀ (h h' : Host) (s s' : Store),
      (run argv h s).1.code = (run argv h' s').1.code ∧
        (run argv h s).1.out.length = (run argv h' s').1.out.length) ∧
    ∀ (a : Arguments) (l l' : Loaded) (env env' : Environment) (ignoreCase ignoreCase' : Bool),
      (split a l env ignoreCase).code = (split a l' env' ignoreCase').code ∧
        (split a l env ignoreCase).out.length = (split a l' env' ignoreCase').out.length := by
  constructor
  · intro h h' s s'
    have hrun := (ending_run argv h s).trans (ending_run argv h' s').symm
    exact ⟨congrArg Ending.code hrun, congrArg Ending.results hrun⟩
  · intro a l l' env env' ignoreCase ignoreCase'
    have hsplit := (ending_split a l env ignoreCase).trans
      (ending_split a l' env' ignoreCase').symm
    exact ⟨congrArg Ending.code hsplit, congrArg Ending.results hsplit⟩

end Invocation

end CommandText
