import Sema.Checking.Symbol
import Sema.Diagnostics.Diagnostic

/-!
# Text reports

The four report texts. Each is a list of lines, and every line ends with a line feed.
-/

namespace Sema

/-- A token as it is listed: the name of its kind, its text and its line. -/
structure ListedToken where
  kind : String
  text : String
  line : Int
  deriving DecidableEq

namespace Report

/-- The text made of the given lines. -/
def ofLines (lines : List String) : String :=
  String.join (lines.map (· ++ "\n"))

/-! ## Tokens and global variables -/

/-- The line of one token. -/
def tokenLine (t : ListedToken) : String :=
  s!"<{t.kind}, {t.text}, {t.line}>"

/-- The token report. -/
def tokens (ts : List ListedToken) : String :=
  ofLines (ts.map tokenLine)

/-- The line of one global variable. -/
def globalLine (s : Symbol) : String :=
  s!"Variable: {s.name} | Type: {s.type.name} | Init: {s.initText}"

/-- The report on global variables. -/
def globals (ss : List Symbol) : String :=
  ofLines (ss.map globalLine)

/-! ## Functions -/

/-- The given lines, or a line that says there are none. -/
def orNone (lines : List String) : List String :=
  if lines.isEmpty then ["      (none)"] else lines

/-- A parameter as it stands in a parameter list. -/
def parameterText (p : Symbol) : String :=
  s!"{p.type.name} {p.name}"

/-- The line of one local variable. -/
def localLine (v : Symbol) : String :=
  s!"      {v.type.name} {v.name} = {v.initText}"

/-- The line between two functions. -/
def separator : String :=
  "--------------------"

/-- The lines on one function. -/
def functionLines (f : FunctionSymbol) : List String :=
  [s!"Name: {f.name}",
    s!"   Kind: {f.classification.name}",
    s!"   Returns: {f.type.name}",
    "   Parameters: [" ++ ", ".intercalate (f.parameters.map parameterText) ++ "]",
    "   Locals:"] ++
  orNone (f.locals.map localLine) ++
  ["   Control structures:"] ++
  orNone (f.controls.map fun r => "      " ++ r.render) ++
  [separator]

/-- The report on functions. -/
def functions (fs : List FunctionSymbol) : String :=
  ofLines (fs.flatMap functionLines)

/-! ## Errors -/

/-- A heading and the diagnostics under it; nothing where there are none. -/
def group (heading : String) (ds : List Diagnostic) : List String :=
  if ds.isEmpty then [] else heading :: ds.map (·.render)

/-- The lines of the error report: parser problems before semantic ones, an empty line between. -/
def errorLines (ds : List Diagnostic) : List String :=
  let parser := group "=== Lexical and syntax errors ===" (ds.filter (·.phase == .parser))
  let semantic := group "=== Semantic errors ===" (ds.filter (·.phase == .semantic))
  if parser.isEmpty && semantic.isEmpty then ["No errors"]
  else if parser.isEmpty || semantic.isEmpty then parser ++ semantic
  else parser ++ [""] ++ semantic

/-- The error report. -/
def errors (ds : List Diagnostic) : String :=
  ofLines (errorLines ds)

end Report

end Sema
