import Sema.Grammar.Category

/-!
# Grammar rules

The rules of the grammar. A rule says of which parts (`Rule.body`) a phrase of its category
(`Rule.category`) consists. Repetition is left-recursive, and optional parts make separate rules.
-/

namespace Sema

/-- The basic types, as they are named in declarations. -/
inductive BasicType where
  | int
  | float
  | double
  | string
  deriving DecidableEq

/-- The keyword of a basic type. -/
def BasicType.terminal : BasicType → Terminal
  | int => .int
  | float => .float
  | double => .double
  | string => .string

/-- What stands before the name of a function. -/
inductive ResultForm where
  | typed
  | void
  | absent
  deriving DecidableEq

/-- The parts that give a function's result. -/
def ResultForm.body : ResultForm → List GrammarSymbol
  | typed => [.phrase .typeName]
  | void => [.terminal .void]
  | absent => []

/-- The forms of statement. -/
inductive StmtForm where
  | varDecl
  | expr
  | ifThen
  | whileLoop
  | forLoop
  | result
  | block
  deriving DecidableEq

/-- The category of a form of statement. -/
def StmtForm.category : StmtForm → Category
  | varDecl => .varDecl
  | expr => .exprStmt
  | ifThen => .ifStmt
  | whileLoop => .whileStmt
  | forLoop => .forStmt
  | result => .returnStmt
  | block => .block

/-- The rules of the grammar. -/
inductive Rule where
  | programDecls
  | programEmpty
  | declsFirst
  | declsMore
  | declVar
  | declFunc
  | varDecl
  | varSpec (isConst hasValue : Bool)
  | funcDef (result : ResultForm) (hasParams : Bool)
  | paramsMany
  | paramsOne
  | paramTailFirst
  | paramTailMore
  | param
  | typeName (type : BasicType)
  | blockFull
  | blockEmpty
  | stmtsFirst
  | stmtsMore
  | stmt (form : StmtForm)
  | exprStmt
  | ifElse
  | ifElseIf
  | ifThen
  | whileLoop
  | forLoop
  | forInitVar
  | forInitExpr
  | forInitEmpty
  | forCondExpr
  | forCondEmpty
  | forUpdateExpr
  | forUpdateEmpty
  | returnValue
  | returnBare
  | expr
  | assignTo
  | assignNone
  | binary (op : BinaryOp)
  | operand (level : Level)
  | unaryNot
  | unaryAtom
  | intLit
  | floatLit
  | stringLit
  | callArgs
  | callEmpty
  | name
  | paren
  | argsMany
  | argsOne
  | argTailFirst
  | argTailMore
  deriving DecidableEq

namespace Rule

/-- The category of the phrases that a rule describes. -/
def category : Rule → Category
  | programDecls | programEmpty => .program
  | declsFirst | declsMore => .decls
  | declVar | declFunc => .decl
  | varDecl => .varDecl
  | varSpec _ _ => .varSpec
  | funcDef _ _ => .funcDef
  | paramsMany | paramsOne => .params
  | paramTailFirst | paramTailMore => .paramTail
  | param => .param
  | typeName _ => .typeName
  | blockFull | blockEmpty => .block
  | stmtsFirst | stmtsMore => .stmts
  | stmt _ => .stmt
  | exprStmt => .exprStmt
  | ifElse | ifElseIf | ifThen => .ifStmt
  | whileLoop => .whileStmt
  | forLoop => .forStmt
  | forInitVar | forInitExpr | forInitEmpty => .forInit
  | forCondExpr | forCondEmpty => .forCond
  | forUpdateExpr | forUpdateEmpty => .forUpdate
  | returnValue | returnBare => .returnStmt
  | expr => .expr
  | assignTo | assignNone => .assign
  | binary op => op.level.category
  | operand level => level.category
  | unaryNot | unaryAtom => .unary
  | intLit | floatLit | stringLit | callArgs | callEmpty | name | paren => .atom
  | argsMany | argsOne => .args
  | argTailFirst | argTailMore => .argTail

/-- The parts of which a phrase consists. -/
def body : Rule → List GrammarSymbol
  | programDecls => [.phrase .decls]
  | programEmpty => []
  | declsFirst => [.phrase .decl]
  | declsMore => [.phrase .decls, .phrase .decl]
  | declVar => [.phrase .varDecl]
  | declFunc => [.phrase .funcDef]
  | varDecl => [.phrase .varSpec, .terminal .semicolon]
  | varSpec isConst hasValue =>
    (if isConst then [.terminal .const] else []) ++ [.phrase .typeName, .terminal .name] ++
      (if hasValue then [.terminal .equal, .phrase .expr] else [])
  | funcDef result hasParams =>
    result.body ++ [.terminal .name, .terminal .lpar] ++
      (if hasParams then [.phrase .params] else []) ++ [.terminal .rpar, .phrase .block]
  | paramsMany => [.phrase .param, .phrase .paramTail]
  | paramsOne => [.phrase .param]
  | paramTailFirst => [.terminal .comma, .phrase .param]
  | paramTailMore => [.phrase .paramTail, .terminal .comma, .phrase .param]
  | param => [.phrase .typeName, .terminal .name]
  | typeName type => [.terminal type.terminal]
  | blockFull => [.terminal .lbrace, .phrase .stmts, .terminal .rbrace]
  | blockEmpty => [.terminal .lbrace, .terminal .rbrace]
  | stmtsFirst => [.phrase .stmt]
  | stmtsMore => [.phrase .stmts, .phrase .stmt]
  | stmt form => [.phrase form.category]
  | exprStmt => [.phrase .expr, .terminal .semicolon]
  | ifElse =>
    [.terminal .ifKw, .terminal .lpar, .phrase .expr, .terminal .rpar, .phrase .block,
      .terminal .elseKw, .phrase .block]
  | ifElseIf =>
    [.terminal .ifKw, .terminal .lpar, .phrase .expr, .terminal .rpar, .phrase .block,
      .terminal .elseKw, .phrase .ifStmt]
  | ifThen =>
    [.terminal .ifKw, .terminal .lpar, .phrase .expr, .terminal .rpar, .phrase .block]
  | whileLoop =>
    [.terminal .whileKw, .terminal .lpar, .phrase .expr, .terminal .rpar, .phrase .block]
  | forLoop =>
    [.terminal .forKw, .terminal .lpar, .phrase .forInit, .terminal .semicolon, .phrase .forCond,
      .terminal .semicolon, .phrase .forUpdate, .terminal .rpar, .phrase .block]
  | forInitVar => [.phrase .varSpec]
  | forInitExpr => [.phrase .expr]
  | forInitEmpty => []
  | forCondExpr => [.phrase .expr]
  | forCondEmpty => []
  | forUpdateExpr => [.phrase .expr]
  | forUpdateEmpty => []
  | returnValue => [.terminal .returnKw, .phrase .expr, .terminal .semicolon]
  | returnBare => [.terminal .returnKw, .terminal .semicolon]
  | expr => [.phrase .assign]
  | assignTo => [.terminal .name, .terminal .equal, .phrase .assign]
  | assignNone => [.phrase .orExpr]
  | binary op => [.phrase op.level.category, .terminal op.terminal, .phrase op.level.operand]
  | operand level => [.phrase level.operand]
  | unaryNot => [.terminal .bang, .phrase .unary]
  | unaryAtom => [.phrase .atom]
  | intLit => [.terminal .intLit]
  | floatLit => [.terminal .floatLit]
  | stringLit => [.terminal .stringLit]
  | callArgs => [.terminal .name, .terminal .lpar, .phrase .args, .terminal .rpar]
  | callEmpty => [.terminal .name, .terminal .lpar, .terminal .rpar]
  | name => [.terminal .name]
  | paren => [.terminal .lpar, .phrase .expr, .terminal .rpar]
  | argsMany => [.phrase .expr, .phrase .argTail]
  | argsOne => [.phrase .expr]
  | argTailFirst => [.terminal .comma, .phrase .expr]
  | argTailMore => [.phrase .argTail, .terminal .comma, .phrase .expr]

end Rule

end Sema
