import Scriptlet.CommandLine.Folder
import Scriptlet.CommandLine.Options
import Scriptlet.Pipeline
import Scriptlet.Report

/-!
# The command line

What the program answers to its arguments, given the files it may read and its standard input.
-/

namespace Scriptlet.CommandLine

/-- Reasons to end that no message is defined for. -/
inductive Crash
  /-- A run that stopped. -/
  | stopped (why : Stop)
  /-- A folder where a file is wanted. -/
  | folder
  /-- A path that is too long. -/
  | pathTooLong
deriving DecidableEq

/-- How the program ends. -/
inductive Ending
  /-- With an exit status. -/
  | exit (status : Nat)
  /-- Without one. -/
  | crash (why : Crash)
deriving DecidableEq

/-- What the program answers. -/
structure Answer where
  /-- How it ends. -/
  ending : Ending
  /-- What it prints to standard output. -/
  stdout : String := ""
  /-- What it prints to standard error. -/
  stderr : String := ""
  /-- The trace, if one was asked for and a program was read. -/
  trace : Option String := none
  /-- Whether the arguments alone decided the answer. -/
  fromArguments : Bool := false

/-! ## Texts -/

/-- The line that sums up the arguments. -/
def usageLine : String := "usage: kotlet [-h] [-v] [--check] [program ...]\n"

/-- The answer to a request for help. -/
def helpText : String :=
  usageLine ++
  "\nKotlet language interpreter\n" ++
  "\npositional arguments:\n" ++
  "  program     Kotlet program file (.kt) to execute\n" ++
  "\noptions:\n" ++
  "  -h, --help  show this help message and exit\n" ++
  "  -v          increase debug verbosity (can be repeated)\n" ++
  "  --check     type-check the program without running it\n"

/-- The answer to arguments that lead to no file. -/
def Refusal.answer : Refusal → Answer
  | .help => { ending := .exit 0, stdout := helpText, fromArguments := true }
  | .usage error =>
    { ending := .exit 2, stderr := usageLine ++ "kotlet: error: " ++ error.message ++ "\n",
      fromArguments := true }

/-- The complaint about nesting that is too deep. -/
def tooDeep : String := "Error: maximum recursion depth exceeded\n"

/-! ## Files -/

/-- How deep questions of the grammar may be nested: two for each nested expression. -/
def parseDepth : Nat := 2000

/-- The place a syntax error points at: the end of the source where it has none. -/
def errorSpan (source : String) (e : SyntaxError) : Span :=
  e.span?.getD ⟨source.length, source.length⟩

/-- A syntax error as it is shown. -/
def renderSyntaxError (source : String) (e : SyntaxError) : String :=
  Report.render source (some (errorSpan source e)) ("syntax error: " ++ e.message) ++ "\n"

/-- A diagnostic as it is shown. -/
def renderDiagnostic (source : String) (d : Diagnostic) : String :=
  Report.render source (some d.span) d.message ++ "\n"

/-- The end of a run that stopped, and what is said about it. -/
def stopped : Stop → Ending × String
  | .fault f => (.exit 1, "Runtime error: " ++ f.message ++ "\n")
  | .breach b => (.exit 1, "Internal error: " ++ b.message ++ "\n")
  | .tooDeep => (.exit 1, tooDeep)
  | why => (.crash (.stopped why), "")

/-- The answer to a program that was run. -/
def ofExecution (source : String) (x : Execution) : Answer :=
  let (ending, stderr) : Ending × String := match x.outcome with
    | .ok _ => (.exit 0, "")
    | .error (.malformed e) => (.exit 1, renderSyntaxError source e)
    | .error (.illTyped ds) => (.exit 1, String.join (ds.map (renderDiagnostic source)))
    | .error (.stopped why) => stopped why
  { ending, stdout := x.output, stderr, trace := x.trace? }

/-- What follows checking: a run, unless only checking was asked for. -/
def afterCheck (o : Options) (settings : Settings) (p : Program) (s : State) : Execution :=
  if o.checkOnly then ⟨.ok .unit, s⟩ else p.execute settings s

/-- The answer to options, once the text of the file is known. -/
def runSource (o : Options) (settings : Settings) (text input : String) : Answer :=
  let source := String.ofList (Text.unifyLineEnds text.toList)
  let s := Pipeline.initial input o.verbosity
  match Program.ofLexemes? parseDepth (Scan.lexemes source) with
  | none => { ending := .exit 1, stderr := tooDeep, trace := s.trace.render? }
  | some (.error e) => ofExecution source ⟨.error (.malformed e), s⟩
  | some (.ok p) => ofExecution source (p.checkThen s (afterCheck o settings p))

/-- The answer to options; `look` says what a path leads to. -/
def runFile (o : Options) (settings : Settings) (look : Path → Access) (input : String) : Answer :=
  let path := Path.ofString o.file
  match look path with
  | .file text => runSource o settings text input
  | .absent => { ending := .exit 1, stderr := "Error: file " ++ path.render ++ " not found\n" }
  | .folder => { ending := .crash .folder }
  | .tooLong => { ending := .crash .pathTooLong }

/-- The answer to arguments. -/
def answer (args : List String) (settings : Settings) (look : Path → Access) (input : String) :
    Answer :=
  match Options.ofArgs args with
  | .error refusal => refusal.answer
  | .ok o => runFile o settings look input

end Scriptlet.CommandLine
