import Sema.Calls.Nesting

/-!
# The calls of reading

Reading a tree calls itself on the parts of the tree. The rules between the levels of operators, and
those that make up a list, do without a call of their own, but a host may put all calls for the
members of a list into one.
-/

namespace Sema

namespace Reading

/-- The call on a tree that is not of the kind that is asked for. -/
def malformedCall : Calls :=
  .call [.raise (.read .malformed)]

/-! ## Expressions -/

variable (own : Bool)

/-- The calls of reading an integer literal. -/
def integerCalls (text : String) : Calls :=
  match Reading.integer text with
  | .ok _ => .call []
  | .error e => .call [.raise (.read e)]

mutual

/-- The calls of reading an expression: one for each operator, assignment, call and literal. -/
def exprCalls : Tree → Calls
  | .node .expr [t] => exprCalls t
  | .node .assignTo [_, _, value] => .call [exprCalls value]
  | .node .assignNone [t] => exprCalls t
  | .node (.binary _) [left, _, right] => .call [exprCalls left, exprCalls right]
  | .node (.operand _) [t] => exprCalls t
  | .node .unaryNot [_, operand] => .call [exprCalls operand]
  | .node .unaryAtom [t] => exprCalls t
  | .node .intLit [.leaf t] => integerCalls t.text
  | .node .floatLit [_] => .call []
  | .node .stringLit [_] => .call []
  | .node .callArgs [_, _, arguments, _] => .call (Calls.listed own (argsCalls arguments))
  | .node .callEmpty [_, _, _] => .call []
  | .node .name [_] => .call []
  | .node .paren [_, value, _] => .call [exprCalls value]
  | _ => malformedCall

def argsCalls : Tree → List Calls
  | .node .argsMany [first, tail] => exprCalls first :: argsCalls tail
  | .node .argsOne [only] => [exprCalls only]
  | .node .argTailFirst [_, first] => [exprCalls first]
  | .node .argTailMore [tail, _, last] => argsCalls tail ++ [exprCalls last]
  | _ => [malformedCall]

end

/-! ## Statements -/

/-- The calls of reading the declaration of a variable. -/
def varSpecCalls : Tree → Calls
  | .node (.varSpec false true) [_, _, _, value] => .call [exprCalls own value, .call []]
  | .node (.varSpec true true) [_, _, _, _, value] => .call [exprCalls own value, .call []]
  | .node (.varSpec _ false) _ => .call [.call []]
  | _ => malformedCall

/-- The calls of reading the start of a `for` loop. -/
def forInitCalls : Tree → Calls
  | .node .forInitVar [spec] => .call [varSpecCalls own spec]
  | .node .forInitExpr [t] => .call [exprCalls own t]
  | .node .forInitEmpty [] => .call []
  | _ => malformedCall

/-- The calls of reading the condition of a `for` loop. -/
def forCondCalls : Tree → Calls
  | .node .forCondExpr [t] => .call [exprCalls own t]
  | .node .forCondEmpty [] => .call []
  | _ => malformedCall

/-- The calls of reading the step of a `for` loop, which is read as an optional expression first. -/
def forUpdateCalls : Tree → Calls
  | .node .forUpdateExpr [t] => .call [.call [exprCalls own t]]
  | .node .forUpdateEmpty [] => .call [.call []]
  | _ => malformedCall

mutual

/-- The calls of reading a statement. The part after `else` comes before the condition. -/
def stmtCalls : Tree → Calls
  | .node (.stmt .varDecl) [.node .varDecl [spec, _]] => .call [varSpecCalls own spec]
  | .node (.stmt .block) [t] => .call [blockCalls t]
  | .node (.stmt _) [t] => stmtCalls t
  | .node .exprStmt [t, _] => .call [exprCalls own t]
  | .node .ifElse [_, _, condition, _, yes, _, no] =>
    .call [blockCalls no, exprCalls own condition, blockCalls yes]
  | .node .ifElseIf [_, _, condition, _, yes, _, no] =>
    .call [stmtCalls no, exprCalls own condition, blockCalls yes]
  | .node .ifThen [_, _, condition, _, yes] => .call [exprCalls own condition, blockCalls yes]
  | .node .whileLoop [_, _, condition, _, body] => .call [exprCalls own condition, blockCalls body]
  | .node .forLoop [_, _, init, _, condition, _, update, _, body] =>
    .call [forInitCalls own init, forCondCalls own condition, forUpdateCalls own update,
      blockCalls body]
  | .node .returnValue [_, value, _] => .call [exprCalls own value]
  | .node .returnBare [_, _] => .call []
  | _ => malformedCall

def blockCalls : Tree → Calls
  | .node .blockFull [_, body, _] => .call (Calls.listed own (stmtsCalls body))
  | .node .blockEmpty [_, _] => .call (Calls.listed own [])
  | _ => malformedCall

def stmtsCalls : Tree → List Calls
  | .node .stmtsFirst [first] => [stmtCalls first]
  | .node .stmtsMore [more, last] => stmtsCalls more ++ [stmtCalls last]
  | _ => [malformedCall]

end

/-! ## Functions and programs -/

/-- The calls of reading parameters, each with its type. -/
def paramsCalls : Tree → List Calls
  | .node .paramsMany [_, tail] => .call [.call []] :: paramsCalls tail
  | .node .paramsOne [_] => [.call [.call []]]
  | .node .paramTailFirst [_, _] => [.call [.call []]]
  | .node .paramTailMore [tail, _, _] => paramsCalls tail ++ [.call [.call []]]
  | _ => [malformedCall]

/-- The calls of reading the parts of a function from its name on. -/
def funcPartsCalls : List Tree → List Calls
  | [_, _, parameters, _, body] =>
    Calls.listed own (paramsCalls parameters) ++ [blockCalls own body]
  | [_, _, _, body] => [blockCalls own body]
  | _ => [malformedCall]

/-- The calls of reading a function. -/
def funcDefCalls : Tree → Calls
  | .node (.funcDef .typed _) (_ :: rest) => .call (.call [] :: funcPartsCalls own rest)
  | .node (.funcDef .void _) (_ :: rest) => .call (funcPartsCalls own rest)
  | .node (.funcDef .absent _) cs => .call (funcPartsCalls own cs)
  | _ => malformedCall

/-- The calls of reading a declaration. -/
def declCalls : Tree → Calls
  | .node .declVar [.node .varDecl [spec, _]] => varSpecCalls own spec
  | .node .declFunc [t] => funcDefCalls own t
  | _ => malformedCall

def declsCalls : Tree → List Calls
  | .node .declsFirst [first] => [declCalls own first]
  | .node .declsMore [more, last] => declsCalls more ++ [declCalls own last]
  | _ => [malformedCall]

/-- The calls of reading a program. -/
def programCalls : Tree → Calls
  | .node .programDecls [t] => .call (declsCalls own t)
  | .node .programEmpty [] => .call []
  | _ => malformedCall

end Reading

end Sema
