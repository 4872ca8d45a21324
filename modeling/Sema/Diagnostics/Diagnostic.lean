/-!
# Diagnostics

A diagnostic is one reported problem. The parser and the checker each have their own codes, so the
code of a diagnostic tells its phase, and the phase fixes how it is written.
-/

namespace Sema

/-- What kind of problem a diagnostic reports. -/
inductive Code where
  | lexicalError
  | syntaxError
  | duplicateDeclaration
  | undeclaredIdentifier
  | undeclaredFunction
  | arityMismatch
  | typeMismatch
  | constAssignment
  | missingReturn
  | illegalMainCall
  | missingMain
  | duplicateMain
  | unknownType
  deriving DecidableEq

namespace Code

/-- The published name of a code. -/
def name : Code → String
  | lexicalError => "LexicalError"
  | syntaxError => "SyntaxError"
  | duplicateDeclaration => "DuplicateDeclaration"
  | undeclaredIdentifier => "UndeclaredIdentifier"
  | undeclaredFunction => "UndeclaredFunction"
  | arityMismatch => "ArityMismatch"
  | typeMismatch => "TypeMismatch"
  | constAssignment => "ConstAssignment"
  | missingReturn => "MissingReturn"
  | illegalMainCall => "IllegalMainCall"
  | missingMain => "MissingMain"
  | duplicateMain => "DuplicateMain"
  | unknownType => "UnknownType"

/-- All codes. -/
def all : List Code :=
  [lexicalError, syntaxError, duplicateDeclaration, undeclaredIdentifier, undeclaredFunction,
    arityMismatch, typeMismatch, constAssignment, missingReturn, illegalMainCall, missingMain,
    duplicateMain, unknownType]

/-- The code with a given name. -/
def ofName? (s : String) : Option Code :=
  all.find? (·.name == s)

end Code

/-- The phase that reports a problem. -/
inductive Phase where
  | parser
  | semantic
  deriving DecidableEq

def Phase.name : Phase → String
  | .parser => "parser"
  | .semantic => "semantic"

/-- The phase a code belongs to. -/
def Code.phase : Code → Phase
  | .lexicalError => .parser
  | .syntaxError => .parser
  | _ => .semantic

/-- One reported problem. A problem of the whole program has no line. -/
structure Diagnostic where
  code : Code
  message : String
  line : Option Int := none
  column : Option Int := none
  deriving DecidableEq

namespace Diagnostic

def phase (d : Diagnostic) : Phase :=
  d.code.phase

/-- A coordinate as it is written, with a word for an absent one. -/
def coordinate : Option Int → String
  | some n => toString n
  | none => "None"

/-- The written form. Parser problems show line and column, semantic ones at most the line. -/
def render (d : Diagnostic) : String :=
  match d.code with
  | .lexicalError =>
    s!"Lexical error at line {coordinate d.line}:{coordinate d.column} - {d.message}"
  | .syntaxError =>
    s!"Syntax error at line {coordinate d.line}:{coordinate d.column} - {d.message}"
  | _ =>
    match d.line with
    | none => s!"Semantic error: {d.message}"
    | some n => s!"Semantic error at line {n}: {d.message}"

end Diagnostic

end Sema
