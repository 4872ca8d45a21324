import Sema.Checking.Expression

/-!
# Checking statements

The walk over a statement. Blocks and `for` loops open a frame of their own; a loop's header and its
block are two frames.
-/

namespace Sema

namespace Checking

/-- Where a variable is declared. -/
inductive Extent where
  | global
  | inFunction
  deriving DecidableEq

/-- The violation of declaring a variable twice. -/
def Extent.duplicate : Extent → String → Violation
  | global => .duplicateGlobal
  | inFunction => .duplicateLocal

/-- The finding that a variable is declared. -/
def Extent.found : Extent → Symbol → Finding
  | global => .globalVar
  | inFunction => .localVar

/-- The symbol that a declaration makes, with the type it resolves to. -/
def declaredSymbol (decl : VarDecl) (type : Ty) : Symbol :=
  { name := decl.name, type, isConst := decl.isConst, initText := decl.initText,
    line := decl.loc.line }

/-- The declaration of a variable. The name is bound after its initializer has been walked. -/
def checkVarDecl (extent : Extent) (decl : VarDecl) : Walk Unit := do
  let type ← Walk.resolveType decl.type decl.loc
  match decl.value with
  | none => pure ()
  | some value =>
    let actual ← checkExpr value
    Walk.reportIf (!type.accepts actual) (.badInitializer decl.name type actual) decl.loc
  let symbol := declaredSymbol decl type
  if ← Walk.declare symbol then Walk.find (extent.found symbol)
  else Walk.report (extent.duplicate decl.name) decl.loc

/-- Lists a control structure. -/
def recordControl (kind : ControlKind) (loc : Location) : Walk Unit :=
  Walk.find (.control ⟨kind, loc.line, loc.lastLine⟩)

def checkCondition? : Option Expr → Walk Unit
  | none => pure ()
  | some e => do let _ ← checkExpr e

/-- A `return`. Outside of a function it is passed over, with its value. -/
def checkReturn (loc : Location) (value : Option Expr) : Walk Unit := do
  match ← Walk.caller with
  | none => pure ()
  | some caller =>
    Walk.find .returned
    let actual ← match value with
      | none => pure Ty.void
      | some e => checkExpr e
    Walk.reportIf (!caller.type.accepts actual) (.badReturn caller.name caller.type actual) loc

mutual

/-- The walk over a statement. -/
def checkStmt : Stmt → Walk Unit
  | .varDecl decl => checkVarDecl .inFunction decl
  | .assign loc target value => do
    let _ ← checkAssign target loc (checkValue? value)
  | .expr _ value => do
    let _ ← checkExpr value
  | .block _ body => checkBlock body
  | .ifThen loc condition thenBlock elseBlock => do
    recordControl .ifThen loc
    let _ ← checkExpr condition
    checkBlock thenBlock
    checkBlock? elseBlock
  | .whileLoop loc condition body => do
    recordControl .whileLoop loc
    let _ ← checkExpr condition
    checkBlock body
  | .forLoop loc init condition update body => do
    recordControl .forLoop loc
    Walk.push
    checkStmt? init
    checkCondition? condition
    checkStmt? update
    checkBlock body
    Walk.pop
  | .result loc value => checkReturn loc value
  | .unsupported => Walk.fail .unsupportedStatement

def checkStmt? : Option Stmt → Walk Unit
  | none => pure ()
  | some s => checkStmt s

def checkBlock : Block → Walk Unit
  | .mk _ statements => do
    Walk.push
    checkStmts statements
    Walk.pop

def checkBlock? : Option Block → Walk Unit
  | none => pure ()
  | some b => checkBlock b

def checkStmts : List Stmt → Walk Unit
  | [] => pure ()
  | s :: ss => do
    checkStmt s
    checkStmts ss

end

end Checking

end Sema
