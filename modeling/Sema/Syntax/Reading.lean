import Sema.Grammar.Tree
import Sema.Number.Double
import Sema.Syntax.Program

/-!
# Reading programs off derivation trees

Each rule of the grammar has its reading as a part of a program. Reading fails on an integer literal
of more than 4300 digits, and on trees that are not well formed.
-/

namespace Sema

/-- Why a tree cannot be read. -/
inductive ReadError where
  | malformed
  | integerTooLong (digits : Nat)
  deriving DecidableEq

namespace ReadError

/-- The most digits that an integer literal may have. -/
def maxDigits : Nat := 4300

/-- The text that reports the error. -/
def message : ReadError → String
  | malformed => "malformed tree"
  | integerTooLong digits =>
    s!"Exceeds the limit ({maxDigits} digits) for integer string conversion: value has {digits} " ++
      "digits; use sys.set_int_max_str_digits() to increase the limit"

end ReadError

/-- The result of reading a tree. -/
abbrev Reading := Except ReadError

namespace Reading

/-! ## Places and texts -/

/-- The place of the phrase that the given trees make. -/
def place (ts : List Tree) : Location :=
  match Tree.startAll? ts, Tree.stopAll? ts with
  | some start, some stop => ⟨start.line, start.column, some stop.line⟩
  | _, _ => ⟨0, 0, none⟩

/-- The text that a tree covers. -/
def sourceText (source : List Char) (t : Tree) : String :=
  match t.start?, t.stop? with
  | some start, some stop =>
    String.ofList ((source.drop start.offset).take (stop.offset - start.offset))
  | _, _ => ""

/-! ## Literals -/

/-- The value of an integer literal. -/
def integer (text : String) : Reading Int :=
  let digits := text.toList
  if digits.length ≤ ReadError.maxDigits then .ok (DecimalDigit.number digits)
  else .error (.integerTooLong digits.length)

/-- The double that a literal with a decimal point spells. -/
def double (text : String) : UInt64 :=
  let whole := text.toList.takeWhile (· != '.')
  let places := (text.toList.dropWhile (· != '.')).drop 1
  Double.ofDecimal (DecimalDigit.number (whole ++ places)) places.length

/-- The text between the quotes of a string literal. -/
def unquoted (text : String) : String :=
  String.ofList (text.toList.drop 1).dropLast

/-! ## Expressions -/

mutual

/-- The expression that a tree spells. -/
def expr : Tree → Reading Expr
  | .node .expr [t] => expr t
  | .node .assignTo cs@([.leaf target, _, value]) => do
    return .assign (place cs) target.text (some (← expr value))
  | .node .assignNone [t] => expr t
  | .node (.binary op) cs@([left, _, right]) => do
    return .binary (place cs) op.text (← expr left) (← expr right)
  | .node (.operand _) [t] => expr t
  | .node .unaryNot cs@([_, operand]) => do return .not (place cs) (← expr operand)
  | .node .unaryAtom [t] => expr t
  | .node .intLit cs@([.leaf t]) => do return .int (place cs) (← integer t.text)
  | .node .floatLit cs@([.leaf t]) => .ok (.float (place cs) (double t.text))
  | .node .stringLit cs@([.leaf t]) => .ok (.string (place cs) (unquoted t.text))
  | .node .callArgs cs@([.leaf func, _, arguments, _]) => do
    return .call (place cs) func.text (← args arguments)
  | .node .callEmpty cs@([.leaf func, _, _]) => .ok (.call (place cs) func.text [])
  | .node .name cs@([.leaf t]) => .ok (.name (place cs) t.text)
  | .node .paren cs@([_, value, _]) => do return .paren (place cs) (← expr value)
  | _ => .error .malformed

def args : Tree → Reading (List Expr)
  | .node .argsMany [first, tail] => do return (← expr first) :: (← args tail)
  | .node .argsOne [only] => do return [← expr only]
  | .node .argTailFirst [_, first] => do return [← expr first]
  | .node .argTailMore [tail, _, last] => do return (← args tail) ++ [← expr last]
  | _ => .error .malformed

end

/-- An expression as a statement. -/
def exprAsStmt : Expr → Stmt
  | .assign loc target value => .assign loc target value
  | e => .expr e.location e

/-! ## Declarations of variables -/

/-- The name of the type that a tree spells. -/
def typeName : Tree → Reading String
  | .node (.typeName _) [.leaf t] => .ok t.text
  | _ => .error .malformed

/-- The parts of a variable's declaration after `const`. -/
def varParts (source : List Char) (loc : Location) (isConst : Bool) :
    List Tree → Reading VarDecl
  | [type, .leaf name] => do
    return { loc, name := name.text, type := some (← typeName type), isConst }
  | [type, .leaf name, _, value] => do
    let init ← expr value
    return { loc, name := name.text, type := some (← typeName type), value := some init, isConst,
             initText := sourceText source value }
  | _ => .error .malformed

/-- The variable that a tree declares. -/
def varSpec (source : List Char) : Tree → Reading VarDecl
  | .node (.varSpec false _) cs => varParts source (place cs) false cs
  | .node (.varSpec true _) cs@(_ :: rest) => varParts source (place cs) true rest
  | _ => .error .malformed

/-- The variable that a tree declares, with its semicolon. -/
def varDecl (source : List Char) : Tree → Reading VarDecl
  | .node .varDecl [spec, _] => varSpec source spec
  | _ => .error .malformed

/-! ## Statements -/

/-- The start of a `for` loop. -/
def forInit (source : List Char) : Tree → Reading (Option Stmt)
  | .node .forInitVar [spec] => do return some (.varDecl (← varSpec source spec))
  | .node .forInitExpr [t] => do return some (exprAsStmt (← expr t))
  | .node .forInitEmpty [] => .ok none
  | _ => .error .malformed

/-- The condition of a `for` loop. -/
def forCond : Tree → Reading (Option Expr)
  | .node .forCondExpr [t] => do return some (← expr t)
  | .node .forCondEmpty [] => .ok none
  | _ => .error .malformed

/-- The step of a `for` loop. -/
def forUpdate : Tree → Reading (Option Stmt)
  | .node .forUpdateExpr [t] => do return some (exprAsStmt (← expr t))
  | .node .forUpdateEmpty [] => .ok none
  | _ => .error .malformed

mutual

/-- The statement that a tree spells. The part after `else` is read before the condition. -/
def stmt (source : List Char) : Tree → Reading Stmt
  | .node (.stmt .varDecl) [t] => do return .varDecl (← varDecl source t)
  | .node (.stmt .block) [t] => do
    let body ← block source t
    return .block body.location body
  | .node (.stmt _) [t] => stmt source t
  | .node .exprStmt [t, _] => do return exprAsStmt (← expr t)
  | .node .ifElse cs@([_, _, condition, _, yes, _, no]) => do
    let otherwise ← block source no
    return .ifThen (place cs) (← expr condition) (← block source yes) (some otherwise)
  | .node .ifElseIf cs@([_, _, condition, _, yes, _, no]) => do
    let otherwise ← stmt source no
    return .ifThen (place cs) (← expr condition) (← block source yes)
      (some (.mk (place [no]) [otherwise]))
  | .node .ifThen cs@([_, _, condition, _, yes]) => do
    return .ifThen (place cs) (← expr condition) (← block source yes) none
  | .node .whileLoop cs@([_, _, condition, _, body]) => do
    return .whileLoop (place cs) (← expr condition) (← block source body)
  | .node .forLoop cs@([_, _, init, _, condition, _, update, _, body]) => do
    return .forLoop (place cs) (← forInit source init) (← forCond condition) (← forUpdate update)
      (← block source body)
  | .node .returnValue cs@([_, value, _]) => do return .result (place cs) (some (← expr value))
  | .node .returnBare cs@([_, _]) => .ok (.result (place cs) none)
  | _ => .error .malformed

def block (source : List Char) : Tree → Reading Block
  | .node .blockFull cs@([_, body, _]) => do return .mk (place cs) (← stmts source body)
  | .node .blockEmpty cs@([_, _]) => .ok (.mk (place cs) [])
  | _ => .error .malformed

def stmts (source : List Char) : Tree → Reading (List Stmt)
  | .node .stmtsFirst [first] => do return [← stmt source first]
  | .node .stmtsMore [more, last] => do return (← stmts source more) ++ [← stmt source last]
  | _ => .error .malformed

end

/-! ## Functions and programs -/

/-- The parameter that a tree spells. -/
def param : Tree → Reading Param
  | .node .param cs@([type, .leaf name]) => do
    return ⟨place cs, name.text, some (← typeName type)⟩
  | _ => .error .malformed

/-- The parameters that a tree spells. -/
def params : Tree → Reading (List Param)
  | .node .paramsMany [first, tail] => do return (← param first) :: (← params tail)
  | .node .paramsOne [only] => do return [← param only]
  | .node .paramTailFirst [_, first] => do return [← param first]
  | .node .paramTailMore [tail, _, last] => do return (← params tail) ++ [← param last]
  | _ => .error .malformed

/-- The parts of a function from its name on. -/
def funcParts (source : List Char) (loc : Location) (returnType : Option String) :
    List Tree → Reading FunctionDef
  | [.leaf name, _, parameters, _, body] => do
    return ⟨loc, name.text, ← params parameters, returnType, ← block source body⟩
  | [.leaf name, _, _, body] => do
    return ⟨loc, name.text, [], returnType, ← block source body⟩
  | _ => .error .malformed

/-- The function that a tree defines. -/
def funcDef (source : List Char) : Tree → Reading FunctionDef
  | .node (.funcDef .typed _) cs@(type :: rest) => do
    funcParts source (place cs) (some (← typeName type)) rest
  | .node (.funcDef .void _) cs@(_ :: rest) => funcParts source (place cs) (some "void") rest
  | .node (.funcDef .absent _) cs => funcParts source (place cs) none cs
  | _ => .error .malformed

/-- The declaration that a tree spells. -/
def decl (source : List Char) : Tree → Reading Decl
  | .node .declVar [t] => do return .var (← varDecl source t)
  | .node .declFunc [t] => do return .func (← funcDef source t)
  | _ => .error .malformed

/-- The declarations that a tree spells. -/
def decls (source : List Char) : Tree → Reading (List Decl)
  | .node .declsFirst [first] => do return [← decl source first]
  | .node .declsMore [more, last] => do return (← decls source more) ++ [← decl source last]
  | _ => .error .malformed

/-- The program that a tree spells. -/
def program (source : List Char) : Tree → Reading Program
  | .node .programDecls [t] => do return ⟨← decls source t⟩
  | .node .programEmpty [] => .ok ⟨[]⟩
  | _ => .error .malformed

end Reading

end Sema
