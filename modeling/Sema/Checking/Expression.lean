import Sema.Checking.Walk
import Sema.Syntax.Operator
import Sema.Syntax.Program

/-!
# Checking expressions

The walk over an expression gives its type. It visits every part of the expression, whatever it has
reported before.
-/

namespace Sema

namespace Checking

/-- The type of a binary operation. There is no type of truth values: comparison and logic yield
`int`. -/
def binaryType (op : BinaryOp) (left right : Ty) : Ty :=
  match op.level with
  | .sum => left.sum right
  | .product => left.product right
  | _ => .int

/-- Reports the arguments that their parameters do not accept. -/
def checkArguments (func : String) (loc : Location) : Nat → List Ty → List Ty → Walk Unit
  | index, declared :: parameters, actual :: arguments => do
    Walk.reportIf (!declared.accepts actual) (.badArgument index func declared actual) loc
    checkArguments func loc (index + 1) parameters arguments
  | _, _, _ => pure ()

/-- Reports what is wrong with calling a function by this name, before its arguments are seen. -/
def checkCallee (func : String) (loc : Location) : Walk (Option Signature) := do
  match ← Walk.callee? func with
  | none =>
    Walk.report (.undefinedFunction func) loc
    return none
  | some callee =>
    Walk.reportIf callee.isMain .mainCall loc
    if (← Walk.caller).any (·.name == func) then Walk.find .selfCall
    return some callee

/-- The type of a call, given those of its arguments. -/
def callType (func : String) (loc : Location) (arguments : List Ty) : Option Signature → Walk Ty
  | none => return .unknown
  | some callee => do
    if arguments.length == callee.parameters.length then
      checkArguments func loc 1 callee.parameters arguments
    else
      Walk.report (.arity func callee.parameters.length arguments.length) loc
    return callee.type

/-- The type of an assignment to a variable, given the walk over the assigned value, if any. -/
def checkAssign (target : String) (loc : Location) (value : Option (Walk Ty)) : Walk Ty := do
  match ← Walk.resolve target with
  | none =>
    Walk.report (.undeclaredVariable target) loc
    match value with
    | none => return .unknown
    | some walk =>
      let _ ← walk
      return .unknown
  | some symbol =>
    Walk.reportIf symbol.isConst (.constAssignment target) loc
    match value with
    | none => return symbol.type
    | some walk =>
      let actual ← walk
      Walk.reportIf (!symbol.type.accepts actual) (.badAssignment target symbol.type actual) loc
      return symbol.type

mutual

/-- The type of an expression. -/
def checkExpr : Expr → Walk Ty
  | .int _ _ => return .int
  | .float _ _ => return .float
  | .string _ _ => return .string
  | .name loc ident => do
    match ← Walk.resolve ident with
    | none =>
      Walk.report (.undeclaredVariable ident) loc
      return .unknown
    | some symbol => return symbol.type
  | .paren _ value => checkExpr value
  | .not _ operand => do
    let _ ← checkExpr operand
    return .int
  | .binary _ op left right => do
    let l ← checkExpr left
    let r ← checkExpr right
    match BinaryOp.ofText? op with
    | some known => return binaryType known l r
    | none => Walk.fail (.unsupportedOperator op)
  | .assign loc target value => checkAssign target loc (checkValue? value)
  | .call loc func args => do
    let callee ← checkCallee func loc
    let arguments ← checkExprs args
    callType func loc arguments callee
  | .unsupported => Walk.fail .unsupportedExpression

def checkValue? : Option Expr → Option (Walk Ty)
  | none => none
  | some e => some (checkExpr e)

def checkExprs : List Expr → Walk (List Ty)
  | [] => return []
  | e :: es => do
    let t ← checkExpr e
    let ts ← checkExprs es
    return t :: ts

end

end Checking

end Sema
