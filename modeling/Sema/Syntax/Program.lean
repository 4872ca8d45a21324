import Sema.Syntax.Location

/-!
# Programs

The syntax of programs. A program may also be put together by hand, so each of expressions,
statements and declarations has a form `unsupported` for what is none of them; the checker refuses
it when it gets there.

Types are kept by name, since a name may be undefined, and operators by their spelling.
-/

namespace Sema

/-! ## Expressions -/

/-- Expressions. -/
inductive Expr where
  | int (loc : Location) (value : Int)
  /-- A floating point number, by the bits of its double. -/
  | float (loc : Location) (bits : UInt64)
  /-- A string: the text between its quotes. -/
  | string (loc : Location) (text : String)
  | name (loc : Location) (ident : String)
  | paren (loc : Location) (value : Expr)
  | not (loc : Location) (operand : Expr)
  | binary (loc : Location) (op : String) (left right : Expr)
  | assign (loc : Location) (target : String) (value : Option Expr)
  | call (loc : Location) (func : String) (args : List Expr)
  | unsupported

/-- The place of an expression. -/
def Expr.location : Expr → Location
  | .int loc _ => loc
  | .float loc _ => loc
  | .string loc _ => loc
  | .name loc _ => loc
  | .paren loc _ => loc
  | .not loc _ => loc
  | .binary loc _ _ _ => loc
  | .assign loc _ _ => loc
  | .call loc _ _ => loc
  | .unsupported => ⟨0, 0, none⟩

/-! ## Statements -/

/-- The declaration of a variable. -/
structure VarDecl where
  loc : Location
  name : String
  type : Option String
  value : Option Expr := none
  isConst : Bool := false
  /-- The source text of the initializer. -/
  initText : String := "null"

mutual

/-- Statements. -/
inductive Stmt where
  | varDecl (decl : VarDecl)
  | assign (loc : Location) (target : String) (value : Option Expr)
  | expr (loc : Location) (value : Expr)
  | block (loc : Location) (body : Block)
  | ifThen (loc : Location) (condition : Expr) (thenBlock : Block) (elseBlock : Option Block)
  | whileLoop (loc : Location) (condition : Expr) (body : Block)
  | forLoop (loc : Location) (init : Option Stmt) (condition : Option Expr) (update : Option Stmt)
      (body : Block)
  | result (loc : Location) (value : Option Expr)
  | unsupported

inductive Block where
  | mk (loc : Location) (statements : List Stmt)

end

def Block.location : Block → Location
  | .mk loc _ => loc

/-- The statements of a block. -/
def Block.statements : Block → List Stmt
  | .mk _ statements => statements

/-! ## Declarations -/

/-- A parameter of a function. -/
structure Param where
  loc : Location
  name : String
  type : Option String

/-- The definition of a function. -/
structure FunctionDef where
  loc : Location
  name : String
  params : List Param
  returnType : Option String
  body : Block

/-- Declarations at the top level. -/
inductive Decl where
  | func (definition : FunctionDef)
  | var (decl : VarDecl)
  | unsupported

/-- A program: its declarations in the order of the source. -/
structure Program where
  declarations : List Decl

/-- The function that a declaration defines. -/
def Decl.function? : Decl → Option FunctionDef
  | .func f => some f
  | _ => none

/-- The functions that a program defines, in the order of the source. -/
def Program.functions (p : Program) : List FunctionDef :=
  p.declarations.filterMap Decl.function?

end Sema
