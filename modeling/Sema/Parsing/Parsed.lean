import Sema.Parsing.Recovery
import Sema.Parsing.Strict
import Sema.Syntax.Reading

/-!
# Programs of a source

From the text of a source to its program: strictly, with the first error as the outcome, or with
recovery, with all errors as diagnostics beside the program.
-/

namespace Sema

/-- Why a source has no program: it does not follow the grammar, or its tree cannot be read. -/
inductive SourceError where
  | parse (e : ParseError)
  | read (e : ReadError)
  deriving DecidableEq

/-- The program that pieces of `source` make, if they follow the grammar. -/
def Program.ofPieces (source : List Char) (ps : List Piece) : Except SourceError Program :=
  match Parsing.strict ps with
  | .error e => .error (.parse e)
  | .ok tree =>
    match Reading.program source tree with
    | .error e => .error (.read e)
    | .ok p => .ok p

/-- The program of a source that follows the grammar. -/
def Program.ofSource (source : List Char) : Except SourceError Program :=
  Program.ofPieces source (pieces source)

/-- The diagnostics of a recovering parse. -/
def Recovered.diagnostics (r : Recovered) : List Diagnostic :=
  Repair.report r.repairs

/-- The program of a recovering parse of `source`, if there is a tree. -/
def Recovered.program (r : Recovered) (source : List Char) : Reading (Option Program) :=
  match r.tree with
  | none => .ok none
  | some tree => some <$> Reading.program source tree

/-- What a recovering parse makes of a source. -/
structure Parsed where
  program : Option Program
  diagnostics : List Diagnostic

def Parsed.ofSource (source : List Char) : Reading Parsed := do
  let recovered := Parsing.recover (pieces source)
  return ⟨← recovered.program source, recovered.diagnostics⟩

end Sema
