import Sema.Lexical.Terminal
import Sema.Syntax.Operator

/-!
# Grammatical categories

The categories of the grammar, and what may stand after a phrase of each of them.
-/

namespace Sema

/-- What the parser looks at next: a token of some kind or the end of the input. -/
inductive Lookahead where
  | token (kind : Terminal)
  | endOfInput
  deriving DecidableEq

namespace Lookahead

/-- The name under which a lookahead is listed. -/
def label : Lookahead → String
  | token kind => kind.label
  | endOfInput => "$END"

/-- All lookaheads in the order of their names. -/
def byLabel : List Lookahead :=
  [.endOfInput, .token .and, .token .bang, .token .comma, .token .const, .token .double,
    .token .elseKw, .token .eq, .token .equal, .token .float, .token .floatLit, .token .forKw,
    .token .ge, .token .gt, .token .ifKw, .token .int, .token .intLit, .token .lbrace, .token .le,
    .token .lpar, .token .lt, .token .minus, .token .name, .token .ne, .token .or, .token .plus,
    .token .rbrace, .token .returnKw, .token .rpar, .token .semicolon, .token .slash, .token .star,
    .token .string, .token .stringLit, .token .void, .token .whileKw]

end Lookahead

/-- The categories of phrases. -/
inductive Category where
  | program | decls | decl | varDecl | varSpec | funcDef | params | paramTail | param | typeName
  | block | stmts | stmt | exprStmt | ifStmt | whileStmt | forStmt | forInit | forCond | forUpdate
  | returnStmt
  | expr | assign | orExpr | andExpr | eqExpr | relExpr | addExpr | mulExpr | unary | atom
  | args | argTail
  deriving DecidableEq

/-- A symbol of the grammar: a token of some kind or a phrase of some category. -/
inductive GrammarSymbol where
  | terminal (kind : Terminal)
  | phrase (category : Category)
  deriving DecidableEq

/-! ## Precedence levels as categories -/

namespace Level

/-- The category of the expressions of a level. -/
def category : Level → Category
  | or => .orExpr
  | and => .andExpr
  | equality => .eqExpr
  | relation => .relExpr
  | sum => .addExpr
  | product => .mulExpr

/-- The category of the operands of a level's operators: the next tighter one. -/
def operand : Level → Category
  | or => .andExpr
  | and => .eqExpr
  | equality => .relExpr
  | relation => .addExpr
  | sum => .mulExpr
  | product => .unary

end Level

/-! ## What may follow -/

namespace Category

/-- What starts a declaration. -/
def declStart : List Terminal :=
  [.const, .int, .float, .double, .string, .void, .name]

/-- What starts a statement. -/
def stmtStart : List Terminal :=
  [.const, .int, .float, .double, .string, .ifKw, .whileKw, .forKw, .returnKw, .lbrace, .bang, .lpar,
    .name, .intLit, .floatLit, .stringLit]

/-- What ends an expression. -/
def exprStop : List Terminal :=
  [.semicolon, .comma, .rpar]

/-- The tokens that may stand right after a phrase of a category, in some program. -/
def followTokens : Category → List Terminal
  | program => []
  | decls | decl | funcDef => declStart
  | varDecl => .void :: .rbrace :: stmtStart
  | block => .void :: .elseKw :: .rbrace :: stmtStart
  | stmts | stmt | exprStmt | ifStmt | whileStmt | forStmt | returnStmt => .rbrace :: stmtStart
  | varSpec | forInit | forCond => [.semicolon]
  | forUpdate | params | args => [.rpar]
  | paramTail | param | argTail => [.comma, .rpar]
  | typeName => [.name]
  | expr | assign => exprStop
  | orExpr => .or :: exprStop
  | andExpr => .and :: .or :: exprStop
  | eqExpr => .eq :: .ne :: .and :: .or :: exprStop
  | relExpr => .lt :: .le :: .gt :: .ge :: .eq :: .ne :: .and :: .or :: exprStop
  | addExpr =>
    .plus :: .minus :: .lt :: .le :: .gt :: .ge :: .eq :: .ne :: .and :: .or :: exprStop
  | mulExpr | unary | atom =>
    .star :: .slash :: .plus :: .minus :: .lt :: .le :: .gt :: .ge :: .eq :: .ne :: .and :: .or ::
      exprStop

/-- Whether a phrase of a category may stand at the end of a program. -/
def endsProgram : Category → Bool
  | program | decls | decl | varDecl | funcDef | block => true
  | _ => false

/-- Whether a lookahead may stand right after a phrase of a category, in some program. -/
def allows (category : Category) : Lookahead → Bool
  | .token kind => category.followTokens.contains kind
  | .endOfInput => category.endsProgram

end Category

end Sema
