import CommandText.Command.Diagnostic
import CommandText.Invocation.Arguments
import CommandText.Settings.Store
import CommandText.Value.Basic

/-!
# Running an invocation

An invocation splits the words of its arguments, joined by single spaces, into tokens. It reports
what is written, in order, and an exit code: zero for tokens or help, one for a rejected text, two
for a usage error. Settings are loaded only once the arguments are known to ask for tokens.
-/

namespace CommandText

/-- Something that is written: a result, a message, or a warning about settings. -/
inductive Line where
  | out (t : Text)
  | err (t : Text)
  | warning (w : Warning)

/-- How an invocation ends and what it writes. -/
structure Report where
  code : Nat
  lines : List Line

namespace Report

def out (r : Report) : List Text := r.lines.filterMap fun
  | .out t => some t
  | _ => none

def err (r : Report) : List Text := r.lines.filterMap fun
  | .err t => some t
  | _ => none

def warnings (r : Report) : List Warning := r.lines.filterMap fun
  | .warning w => some w
  | _ => none

end Report

namespace Invocation

def exitOk : Nat := 0

def exitMalformed : Nat := 1

def exitUsage : Nat := 2

def usage : Text := "Usage: cmdtok [options] [--] <text...>"

def help : Text := Text.join [Text.newline] <| [
    "",
    "cmdtok - Split a command string into arguments",
    "",
    "USAGE:",
    "  cmdtok [options] [--] <text...>",
    "",
    "  Several words are joined with single spaces before splitting.",
    "",
    "OPTIONS:",
    "  -q, --preserve-quotes   Keep the double quotes around quoted terms",
    "  -j, --json              Print the tokens as a JSON array",
    "  -D, --define NAME=VALUE Define a variable for %NAME% (repeatable)",
    "      --no-env            Do not resolve %NAME% from the environment",
    "  -v, --verbose           Log configuration and token counts to stderr",
    "  -h, --help              Show this help message",
    "",
    "EXAMPLES:",
    "  cmdtok 'run \"My Project\" --configuration %CONFIGURATION%'",
    "  cmdtok --json -D OUT=bin -- 'publish -o %OUT%'",
    ""
  ].map Text.ofString

def refuse (e : UsageError) : Report := ⟨exitUsage, [.err e.message, .err usage]⟩

/-- Definitions come first, then the variables among the settings, then the environment. -/
def lookup (a : Arguments) (settings : Effective) (env : Environment) (ignoreCase : Bool) :
    Lookup :=
  Lookup.chain [
    Lookup.ofTable a.defines,
    Lookup.ofRecord settings.bindings,
    if a.useEnv && settings.useEnv then Lookup.ofEnvironment env ignoreCase else Lookup.none
  ]

def commandText (a : Arguments) : Text := Text.join [Text.space] a.words

def tokens (a : Arguments) (settings : Effective) (env : Environment) (ignoreCase : Bool) :
    Except Rejection (List Text) :=
  tokenize (lookup a settings env ignoreCase) (a.preserveQuotes || settings.preserveQuotes)
    (commandText a)

def configLine (path : Option Text) : Text := "[cmdtok] Using config: " ++ path.getD "(none)"

def countLine (n : Nat) : Text :=
  "[cmdtok] Split into " ++ Text.ofNat n ++ " token" ++ if n = 1 then [] else Text.ofString "s"

/-- Tokens one by one, or all of them as one list. -/
def printed (json : Bool) (tokens : List Text) : List Text :=
  if json then [(Value.list (tokens.map .text)).written] else tokens

/-- What is written once the settings are loaded. -/
def split (a : Arguments) (l : Loaded) (env : Environment) (ignoreCase : Bool) : Report :=
  let verbose := a.verbose || l.settings.debug
  let opening := if verbose then [Line.err (configLine l.path)] else []
  match tokens a l.settings env ignoreCase with
  | .error r =>
    ⟨exitMalformed, opening ++ [.err (Diagnostic.render (Diagnostic.colorsEnabled env) r)]⟩
  | .ok tokens =>
    let count := if verbose then [Line.err (countLine tokens.length)] else []
    ⟨exitOk, opening ++ count ++ (printed a.json tokens).map .out⟩

/-- Runs an invocation on a host, with the store of settings before and after. -/
def run (argv : List Text) (h : Host) (s : Store) : Report × Store :=
  match Arguments.read argv with
  | .error e => (refuse e, s)
  | .ok a =>
    if a.help then (⟨exitOk, [.out help]⟩, s)
    else if a.words = [] then (refuse .missingText, s)
    else
      let (l, warnings) := Loaded.ofHost h
      let report := split a l h.env h.ignoreCase
      ({ report with lines := warnings.map .warning ++ report.lines }, ⟨some l⟩)

end Invocation

end CommandText
