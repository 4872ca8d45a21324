import Sema.Checking.FunctionTable
import Sema.Checking.Statement
import Sema.Diagnostics.Sink

/-!
# The checker

The checker holds what is known across the declarations of a program: the open scopes, the table of
functions, the global variables, the diagnostics, and the function it is in. It first registers all
functions, so that calls may come before definitions, and then walks over the declarations in order.

Only the first definition of a name is registered. Later ones are walked as well, so that their
errors come up, but with a symbol of their own that never reaches the table.
-/

namespace Sema

/-- The function that the checker is in: an entry of the table or a symbol outside of it. -/
inductive Current where
  | nowhere
  | entry (key : String)
  | detached (function : FunctionSymbol)
  deriving DecidableEq

/-- The state of a check. -/
structure Checker where
  scopes : ScopeStack := .empty
  functions : FunctionTable := .empty
  globals : List Symbol := []
  sink : Sink := .empty
  current : Current := .nowhere
  deriving DecidableEq

/-- Adds what a finding says about the function it was made in. -/
def FunctionSymbol.note (f : FunctionSymbol) : Finding → FunctionSymbol
  | .localVar symbol => { f with locals := f.locals ++ [symbol] }
  | .control record => { f with controls := f.controls ++ [record] }
  | .returned => { f with hasReturn := true }
  | .selfCall => { f with isRecursive := true }
  | .violation _ _ => f
  | .globalVar _ => f

/-- The symbol of a defined function before its body has been walked. -/
def FunctionDef.symbol (f : FunctionDef) (type : Ty) (parameters : List Symbol) : FunctionSymbol :=
  { name := f.name, type, line := f.loc.line, parameters, isMain := f.name == mainName }

namespace Checker

/-- The checker at the start. -/
def empty : Checker := {}

/-! ## Walks within a check -/

/-- The symbol of the function that the checker is in. -/
def function? (c : Checker) : Option FunctionSymbol :=
  match c.current with
  | .nowhere => none
  | .entry key => c.functions.find? key
  | .detached f => some f

/-- The surroundings of a walk. -/
def env (c : Checker) : Env where
  callee? name := (c.functions.find? name).map (·.signature)
  caller := c.function?.map (·.caller)

def note (c : Checker) (finding : Finding) : Checker :=
  match c.current with
  | .nowhere => c
  | .entry key => { c with functions := c.functions.modify key (·.note finding) }
  | .detached f => { c with current := .detached (f.note finding) }

/-- Files a diagnostic. -/
def file (c : Checker) (d : Diagnostic) : Checker :=
  { c with sink := (c.sink.add d).2 }

/-- Takes in a finding. -/
def absorb (c : Checker) (finding : Finding) : Checker :=
  match finding with
  | .violation v loc => c.file (v.located loc)
  | .globalVar symbol => { c with globals := c.globals ++ [symbol] }
  | _ => c.note finding

end Checker

/-- A step of a check. What it changed before a failure stays changed. -/
abbrev CheckM := ExceptT CheckError (StateM Checker)

namespace CheckM

/-- Carries out a walk and takes in its findings. -/
def walk {α : Type} (w : Walk α) : CheckM α :=
  fun c =>
    let outcome := w c.env c.scopes
    (outcome.value, outcome.findings.foldl Checker.absorb { c with scopes := outcome.scopes })

/-- Enters a function, or leaves the one the checker is in. -/
def setCurrent (current : Current) : CheckM Unit :=
  modify fun c => { c with current }

end CheckM

namespace Checking

open CheckM (walk setCurrent)

/-! ## Registration -/

/-- The symbol of a parameter. -/
def paramSymbol (p : Param) (type : Ty) : Symbol :=
  { name := p.name, type, line := p.loc.line }

/-- The symbols of a function's parameters; `seen` holds the names before them. -/
def paramSymbols (func : String) : List String → List Param → Walk (List Symbol)
  | _, [] => return []
  | seen, p :: ps => do
    Walk.reportIf (seen.contains p.name) (.duplicateParameter p.name func) p.loc
    let type ← Walk.resolveType p.type p.loc
    let rest ← paramSymbols func (p.name :: seen) ps
    return paramSymbol p type :: rest

/-- Registers a function, unless there is one of its name. -/
def registerFunction (f : FunctionDef) : CheckM Unit := do
  let type ← walk (Walk.resolveType f.returnType f.loc)
  let parameters ← walk (paramSymbols f.name [] f.params)
  if (← get).functions.contains f.name then
    walk (Walk.report (.duplicateFunction f.name) f.loc)
  else
    modify fun c => { c with functions := c.functions.insert f.name (f.symbol type parameters) }

def registerFunctions : List FunctionDef → CheckM Unit
  | [] => pure ()
  | f :: fs => do
    registerFunction f
    registerFunctions fs

/-! ## Functions -/

/-- Binds the parameters of a function in its frame. -/
def bindParams (func : String) : List Param → Walk Unit
  | [] => pure ()
  | p :: ps => do
    let type ← Walk.resolveType p.type p.loc
    let fresh ← Walk.declare (paramSymbol p type)
    Walk.reportIf (!fresh) (.duplicateParameter p.name func) p.loc
    bindParams func ps

/-- The walk over a function, in a frame that its parameters and its body share, up to the end of
the body. -/
def checkBody (f : FunctionDef) : Walk Unit := do
  Walk.push
  bindParams f.name f.params
  checkStmts f.body.statements

/-- Reports a function that should return a value and has no `return`. -/
def checkReturns (f : FunctionDef) : CheckM Unit := do
  match (← get).function? with
  | none => pure ()
  | some symbol =>
    walk (Walk.reportIf (symbol.type != .void && !symbol.hasReturn)
      (.missingReturn f.name symbol.type) f.loc)

/-- Walks over a function; `registered` tells whether this definition is the registered one. -/
def checkFunction (f : FunctionDef) (registered : Bool) : CheckM Unit := do
  if registered then setCurrent (.entry f.name)
  else
    let type ← walk (Walk.resolveType f.returnType f.loc)
    setCurrent (.detached (f.symbol type []))
  walk (checkBody f)
  checkReturns f
  walk Walk.pop
  setCurrent .nowhere

/-! ## Programs -/

/-- Walks over declarations; `taken` holds the function names that are not to be registered any
more. -/
def checkDecls : List String → List Decl → CheckM Unit
  | _, [] => pure ()
  | taken, .func f :: ds => do
    checkFunction f (!taken.contains f.name)
    checkDecls (f.name :: taken) ds
  | taken, .var d :: ds => do
    walk (checkVarDecl .global d)
    checkDecls taken ds
  | _, .unsupported :: _ => throw .unsupportedDeclaration

/-- Reports a program without an entry point or with several. -/
def checkMain : CheckM Unit :=
  modify fun c =>
    match (c.functions.functions.filter (·.isMain)).length with
    | 0 => c.file Violation.missingMain.global
    | 1 => c
    | count => c.file (Violation.severalMains count).global

/-- Checks a program. -/
def checkProgram (p : Program) : CheckM Unit := do
  let taken := (← get).functions.keys
  registerFunctions p.functions
  checkDecls taken p.declarations
  checkMain

end Checking

/-! ## Results -/

/-- What the check of a program shows. -/
structure Checked where
  functions : FunctionTable
  globals : List Symbol
  diagnostics : List Diagnostic

/-- Checks a program on its own. -/
def Checked.ofProgram (p : Program) : Except CheckError Checked :=
  match (Checking.checkProgram p).run Checker.empty with
  | (.ok (), c) => .ok ⟨c.functions, c.globals, c.sink.items⟩
  | (.error e, _) => .error e

end Sema
