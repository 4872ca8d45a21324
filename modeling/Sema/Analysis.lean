import Sema.Checking.Checker
import Sema.Lexical.Listing
import Sema.Parsing.Parsed
import Sema.Report.Document

/-!
# Analysis of a source

A source is listed token by token, parsed with recovery and, if it has a program, checked. The
diagnostics of the parser come before those of the checker, and equal texts are kept once.
-/

namespace Sema

/-- Why a source cannot be analyzed. -/
inductive AnalysisError where
  | read (e : ReadError)
  | check (e : CheckError)
  deriving DecidableEq

/-- What the analysis of a source shows. -/
structure Analysis where
  tokens : List ListedToken
  /-- The program, if there is a tree. -/
  program : Option Program
  checked : Option Checked
  diagnostics : List Diagnostic

namespace Analysis

/-- Checks the program, if there is one. -/
def checkedProgram : Option Program → Except AnalysisError (Option Checked)
  | none => .ok none
  | some p =>
    match Checked.ofProgram p with
    | .ok checked => .ok (some checked)
    | .error e => .error (.check e)

/-- The diagnostics of both phases. -/
def merge (parser : List Diagnostic) (checked : Option Checked) : List Diagnostic :=
  ((Sink.empty.extend parser).extend (checked.elim [] (·.diagnostics))).items

/-- Analyzes a source. -/
def ofSource (source : List Char) : Except AnalysisError Analysis :=
  match Parsed.ofSource source with
  | .error e => .error (.read e)
  | .ok parsed =>
    match checkedProgram parsed.program with
    | .error e => .error e
    | .ok checked =>
      .ok ⟨tokenListing source, parsed.program, checked, merge parsed.diagnostics checked⟩

/-- Zero if there is nothing to report. -/
def exitCode (a : Analysis) : Nat :=
  if a.diagnostics.isEmpty then 0 else 1

/-- The global variables of the program. -/
def globals (a : Analysis) : List Symbol :=
  a.checked.elim [] (·.globals)

/-- The functions of the program, in the order of their definitions. -/
def functions (a : Analysis) : List FunctionSymbol :=
  a.checked.elim [] (·.functions.functions)

/-! ## Reports -/

/-- The report files in the order in which they are written. -/
def reports (a : Analysis) : List (String × String) :=
  [("tokens.txt", Report.tokens a.tokens),
    ("global_vars.txt", Report.globals a.globals),
    ("functions.txt", Report.functions a.functions),
    ("errors.txt", Report.errors a.diagnostics)]

/-! ## The document -/

/-- An optional number. -/
def optional : Option Int → Document
  | none => .null
  | some n => .number n

/-- A global variable. -/
def globalDocument (s : Symbol) : Document :=
  .record [("name", .text s.name), ("type", .text s.type.name), ("init", .text s.initText)]

/-- A parameter. -/
def parameterDocument (s : Symbol) : Document :=
  .record [("type", .text s.type.name), ("name", .text s.name)]

/-- A local variable. -/
def localDocument (s : Symbol) : Document :=
  .record [("type", .text s.type.name), ("name", .text s.name), ("init", .text s.initText)]

/-- A control structure. -/
def controlDocument (r : ControlRecord) : Document :=
  .record [("kind", .text r.kind.name), ("start_line", .number r.startLine),
    ("end_line", .number r.endLine)]

/-- A function. -/
def functionDocument (f : FunctionSymbol) : Document :=
  .record [("name", .text f.name), ("kind", .text f.classification.name),
    ("returns", .text f.type.name),
    ("parameters", .list (f.parameters.map parameterDocument)),
    ("locals", .list (f.locals.map localDocument)),
    ("control_structures", .list (f.controls.map controlDocument))]

/-- A diagnostic. -/
def diagnosticDocument (d : Diagnostic) : Document :=
  .record [("phase", .text d.phase.name), ("code", .text d.code.name), ("line", optional d.line),
    ("column", optional d.column), ("message", .text d.message)]

/-- The analysis as one document. -/
def document (a : Analysis) : Document :=
  .record [("exit_code", .number a.exitCode),
    ("globals", .list (a.globals.map globalDocument)),
    ("functions", .list (a.functions.map functionDocument)),
    ("diagnostics", .list (a.diagnostics.map diagnosticDocument))]

end Analysis

end Sema
