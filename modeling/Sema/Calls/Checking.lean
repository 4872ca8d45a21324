import Sema.Calls.Nesting

/-!
# The calls of checking

The check of a program calls itself on the parts of the program. An operation, an assignment and a
call take two calls, one for the expression and one for its form, and so do most statements.
-/

namespace Sema

namespace Checking

/-! ## Expressions -/

/-- What an unknown operator raises after its operands. -/
def operatorCalls (op : String) : List Calls :=
  if (BinaryOp.ofText? op).isSome then [] else [.raise (.check (.unsupportedOperator op))]

mutual

/-- The calls of checking an expression. -/
def exprCalls : Expr → Calls
  | .int _ _ => .call []
  | .float _ _ => .call []
  | .string _ _ => .call []
  | .name _ _ => .call []
  | .paren _ value => .call [exprCalls value]
  | .not _ operand => .call [exprCalls operand]
  | .binary _ op left right => .call [.call (exprCalls left :: exprCalls right :: operatorCalls op)]
  | .assign _ _ value => .call [.call (exprCalls? value)]
  | .call _ _ args => .call [.call (exprsCalls args)]
  | .unsupported => .call [.raise (.check .unsupportedExpression)]

def exprCalls? : Option Expr → List Calls
  | none => []
  | some e => [exprCalls e]

def exprsCalls : List Expr → List Calls
  | [] => []
  | e :: es => exprCalls e :: exprsCalls es

end

/-! ## Statements -/

/-- The call that checks the declaration of a variable. -/
def varDeclCall (d : VarDecl) : Calls :=
  .call (exprCalls? d.value)

mutual

/-- The calls of checking a statement. -/
def stmtCalls : Stmt → Calls
  | .varDecl decl => .call [varDeclCall decl]
  | .assign _ _ value => .call [.call (exprCalls? value)]
  | .expr _ value => .call [exprCalls value]
  | .block _ body => .call [blockCalls body]
  | .ifThen _ condition thenBlock elseBlock =>
    .call (exprCalls condition :: blockCalls thenBlock :: blockCalls? elseBlock)
  | .whileLoop _ condition body => .call [exprCalls condition, blockCalls body]
  | .forLoop _ init condition update body =>
    .call (stmtCalls? init ++ (exprCalls? condition ++ (stmtCalls? update ++ [blockCalls body])))
  | .result _ value => .call [.call (exprCalls? value)]
  | .unsupported => .call [.raise (.check .unsupportedStatement)]

def stmtCalls? : Option Stmt → List Calls
  | none => []
  | some s => [stmtCalls s]

def blockCalls : Block → Calls
  | .mk _ statements => .call (stmtsCalls statements)

def blockCalls? : Option Block → List Calls
  | none => []
  | some b => [blockCalls b]

def stmtsCalls : List Stmt → List Calls
  | [] => []
  | s :: ss => stmtCalls s :: stmtsCalls ss

end

/-! ## Programs -/

/-- The calls of checking a declaration. The statements of a function have no call for the block
that they are in. -/
def declCalls : Decl → Calls
  | .func f => .call (stmtsCalls f.body.statements)
  | .var d => varDeclCall d
  | .unsupported => .raise (.check .unsupportedDeclaration)

/-- The calls of checking a program, by a checker that is made for it. -/
def programCalls (p : Program) : Calls :=
  .call [.call (p.declarations.map declCalls)]

end Checking

end Sema
