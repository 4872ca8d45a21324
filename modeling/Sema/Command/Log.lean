import Sema.Parsing.Parsed
import Sema.Text.Quoted

/-!
# Log lines

What the command tells about its progress, line by line. Each line belongs to a part of the command
and has a level; how verbose the command is decides which lines are shown.
-/

namespace Sema

/-- How important a line is. -/
inductive LogLevel where
  | info
  | debug
  deriving DecidableEq

namespace LogLevel

/-- The name of a level. -/
def name : LogLevel → String
  | info => "INFO"
  | debug => "DEBUG"

/-- The verbosity from which on a level is shown. -/
def threshold : LogLevel → Nat
  | info => 1
  | debug => 2

end LogLevel

/-- The parts of the command that log. -/
inductive Logger where
  | driver
  | parser
  | checker
  | reports
  deriving DecidableEq

def Logger.name : Logger → String
  | .driver => "minilang"
  | .parser => "minilang.parser"
  | .checker => "minilang.checker"
  | .reports => "minilang.reports"

/-- A line of the log. -/
structure LogLine where
  logger : Logger
  level : LogLevel
  message : String
  deriving DecidableEq

/-- The written form of a line. -/
def LogLine.render (l : LogLine) : String :=
  s!"{l.logger.name}: {l.level.name}: {l.message}\n"

/-- What is logged of a repair. -/
def Repair.log : Repair → List LogLine
  | .unwound depth t _ =>
    [⟨.parser, .debug, s!"unwound {depth} parser state(s) to line {t.start.line}"⟩]
  | .dropped t _ =>
    [⟨.parser, .debug, s!"dropped {Quoted.quoted t.text} at line {t.start.line}"⟩]
  | _ => []

def Recovered.log (r : Recovered) : List LogLine :=
  r.repairs.flatMap Repair.log ++
    if r.tree.isSome then []
    else [⟨.parser, .info, s!"parse failed after {r.diagnostics.length} diagnostic(s)"⟩]

/-- What is logged of checking a program, or of having none. -/
def Program.checkLog : Option Program → List LogLine
  | none => [⟨.driver, .info, "no syntax tree; semantic analysis skipped"⟩]
  | some p =>
    ⟨.driver, .info, s!"checking {p.declarations.length} top-level declaration(s)"⟩ ::
      p.functions.map fun f =>
        ⟨.checker, .debug, s!"checking function {f.name} (line {f.loc.line})"⟩

end Sema
