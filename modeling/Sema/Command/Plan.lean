import Sema.Analysis
import Sema.Command.Log
import Sema.Command.Options
import Sema.Command.Path
import Sema.Text.Newline

/-!
# Plans

What the command does is laid out as a plan before anything is done: texts to print, directories to
make, files to write, and how it ends.
-/

namespace Sema

/-- One step of a plan. -/
inductive Step where
  /-- Prints to the standard output. -/
  | print (text : String)
  /-- Prints to the error output. -/
  | warn (text : String)
  /-- Makes a directory and those above it, as far as they are missing. -/
  | makeDirs (path : Path)
  /-- Writes a file. -/
  | write (path : Path) (text : String)
  deriving DecidableEq

/-- Why an operation on files fails. -/
inductive FileError where
  | missing
  | exists
  | notDirectory
  | isDirectory
  | nameTooLong
  deriving DecidableEq

namespace FileError

/-- The number of an error. -/
def number : FileError → Nat
  | missing => 2
  | «exists» => 17
  | notDirectory => 20
  | isDirectory => 21
  | nameTooLong => 36

/-- The text of an error. -/
def text : FileError → String
  | missing => "No such file or directory"
  | «exists» => "File exists"
  | notDirectory => "Not a directory"
  | isDirectory => "Is a directory"
  | nameTooLong => "File name too long"

end FileError

/-- Why the command breaks off. -/
inductive Fault where
  /-- The source is not UTF-8. -/
  | encoding
  | analysis (e : AnalysisError)
  /-- A path holds a NUL. -/
  | nulInPath
  /-- No directory is named for the reports. -/
  | noDirectory
  | file (e : FileError) (path : Path)
  deriving DecidableEq

/-- The text that reports why the command breaks off. -/
def Fault.message : Fault → String
  | encoding => "the source is not valid UTF-8"
  | analysis (.read e) => e.message
  | analysis (.check e) => e.message
  | nulInPath => "embedded null byte"
  | noDirectory => "'list' object has no attribute 'mkdir'"
  | file e path => s!"[Errno {e.number}] {e.text}: {Quoted.quoted path.text}"

/-- How the command ends: with an exit code, or broken off. -/
abbrev Ending := Except Fault Nat

/-- Steps to take and how the command ends after them. -/
structure Plan where
  steps : List Step
  ending : Ending

namespace Plan

/-- The name of the command. -/
def commandName : String := "minilangc"

/-- The line that shows how the command is used. -/
def usage : String :=
  s!"usage: {commandName} [-h] [-o OUT_DIR] [--json] [-v] source\n"

/-- The help text. -/
def helpText : String :=
  usage ++ Report.ofLines
    ["",
      s!"{commandName}: MiniLang semantic analyzer",
      "",
      "positional arguments:",
      "  source                MiniLang source file",
      "",
      "options:",
      "  -h, --help            show this help message and exit",
      "  -o OUT_DIR, --out-dir OUT_DIR",
      "                        Directory for tokens.txt, global_vars.txt,",
      "                        functions.txt and errors.txt (default: .)",
      "  --json                Print globals, function reports and diagnostics as",
      "                        JSON instead of writing report files",
      "  -v, --verbose         Log progress to stderr (-v info, -vv debug)"]

/-- Shows the help text. -/
def help : Plan :=
  ⟨[.print helpText], .ok 0⟩

/-- Reports a wrong use. -/
def misuse (e : UsageError) : Plan :=
  ⟨[.warn (usage ++ s!"{commandName}: error: {e.message}\n")], .ok 2⟩

/-- Reports a source that cannot be read. -/
def unreadable (path : Path) (e : FileError) : Plan :=
  ⟨[.warn s!"{commandName}: cannot read {path.text}: {e.text}\n"], .ok 2⟩

/-- The lines of a log that are shown. -/
def logged (verbosity : Nat) (lines : List LogLine) : List Step :=
  (lines.filter fun l => l.level.threshold ≤ verbosity).map fun l => .warn l.render

/-- Writes the reports of an analysis into a directory. -/
def writeReports (verbosity : Nat) (dir : Path) (a : Analysis) : List Step :=
  .makeDirs dir :: a.reports.flatMap fun (name, text) =>
    .write (dir.child name) text ::
      logged verbosity [⟨.reports, .info, s!"wrote {(dir.child name).text}"⟩]

/-- Shows the results of an analysis. -/
def present (options : Options) (a : Analysis) : Plan :=
  if options.json then ⟨[.print (a.document.render ++ "\n")], .ok a.exitCode⟩
  else
    match options.outDir with
    | none => ⟨[], .error .noDirectory⟩
    | some outDir =>
      let dir := Path.ofText outDir
      if !dir.isPassable then ⟨[], .error .nulInPath⟩
      else ⟨writeReports options.verbosity dir a ++
        [.print (s!"Processing complete: {a.diagnostics.length} diagnostic(s), " ++
          s!"reports in {dir.text}\n")], .ok a.exitCode⟩

/-- Takes steps before those of a plan. -/
def after (p : Plan) (steps : List Step) : Plan :=
  { p with steps := steps ++ p.steps }

/-- Analyzes a source. -/
def analyze (options : Options) (source : List Char) : Plan :=
  let log := logged options.verbosity
  let start := log (⟨.driver, .info, s!"analyzing {(Path.ofText options.source).text}"⟩ ::
    (Parsing.recover (pieces source)).log)
  match Analysis.ofSource source with
  | .error e => ⟨start, .error (.analysis e)⟩
  | .ok a => (present options a).after (start ++ log (Program.checkLog a.program))

/-- Goes on after the attempt to read the source. -/
def afterReading (options : Options) (attempt : Except FileError ByteArray) : Plan :=
  let path := Path.ofText options.source
  if !path.isPassable then ⟨[], .error .nulInPath⟩
  else
    match attempt with
    | .error e => unreadable path e
    | .ok bytes =>
      match String.fromUTF8? bytes with
      | none => ⟨[], .error .encoding⟩
      | some text => analyze options (Newline.fold text.toList)

end Plan

end Sema
