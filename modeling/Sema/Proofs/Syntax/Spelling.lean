import Sema.Grammar.Tree
import Sema.Proofs.Number.Double
import Sema.Syntax.Program

/-!
# What a derivation tree spells

The reading of each rule, as relations between trees and parts of programs: `SpellsExpr t e` says
that the tree `t` spells the expression `e`, and so on up to `SpellsProgram`. The place of a phrase
goes from its first token to its last (`placeOf`), and the text of an initializer is what the source
has there (`sliceOf`). A floating point literal spells the nearest double (`Double.Spells`).

Nothing is said here on how a tree is read, nor is there a bound on the length of integers.
-/

namespace Sema

/-- The place of a phrase with the given tokens. -/
def placeOf (w : List Token) : Location :=
  match w.head?, w.getLast? with
  | some first, some last => ⟨first.start.line, first.start.column, some last.stop.line⟩
  | _, _ => ⟨0, 0, none⟩

/-- The text of the source from the first to the last of the given tokens. -/
def sliceOf (source : List Char) (w : List Token) : String :=
  match w.head?, w.getLast? with
  | some first, some last =>
    String.ofList ((source.drop first.start.offset).take (last.stop.offset - first.start.offset))
  | _, _ => ""

/-! ## Expressions -/

/-- The text between the first and the last character of a text. -/
inductive Inside : List Char → List Char → Prop
  | between {first last : Char} {cs : List Char} : Inside (first :: cs ++ [last]) cs
  | short {cs : List Char} (nothing : cs.length < 2) : Inside cs []

mutual

/-- The expression that a tree spells. -/
inductive SpellsExpr : Tree → Expr → Prop
  | expr {t : Tree} {e : Expr} (part : SpellsExpr t e) : SpellsExpr (.node .expr [t]) e
  | assignNone {t : Tree} {e : Expr} (part : SpellsExpr t e) : SpellsExpr (.node .assignNone [t]) e
  | operand {level : Level} {t : Tree} {e : Expr} (part : SpellsExpr t e) :
      SpellsExpr (.node (.operand level) [t]) e
  | unaryAtom {t : Tree} {e : Expr} (part : SpellsExpr t e) : SpellsExpr (.node .unaryAtom [t]) e
  | assignTo {target equal : Token} {t : Tree} {e : Expr} (value : SpellsExpr t e) :
      SpellsExpr (.node .assignTo [.leaf target, .leaf equal, t])
        (.assign (placeOf (target :: equal :: t.leaves)) target.text (some e))
  | binary {op : BinaryOp} {l r : Tree} {sign : Token} {a b : Expr} (left : SpellsExpr l a)
      (right : SpellsExpr r b) :
      SpellsExpr (.node (.binary op) [l, .leaf sign, r])
        (.binary (placeOf (l.leaves ++ sign :: r.leaves)) op.text a b)
  | not {bang : Token} {t : Tree} {e : Expr} (operand : SpellsExpr t e) :
      SpellsExpr (.node .unaryNot [.leaf bang, t]) (.not (placeOf (bang :: t.leaves)) e)
  | int {token : Token} :
      SpellsExpr (.node .intLit [.leaf token])
        (.int (placeOf [token]) (DecimalDigit.number token.text.toList))
  | float {token : Token} {bits : UInt64} (nearest : Double.Spells token.text.toList bits) :
      SpellsExpr (.node .floatLit [.leaf token]) (.float (placeOf [token]) bits)
  | string {token : Token} {cs : List Char} (quoted : Inside token.text.toList cs) :
      SpellsExpr (.node .stringLit [.leaf token]) (.string (placeOf [token]) (String.ofList cs))
  | name {token : Token} :
      SpellsExpr (.node .name [.leaf token]) (.name (placeOf [token]) token.text)
  | paren {lpar rpar : Token} {t : Tree} {e : Expr} (value : SpellsExpr t e) :
      SpellsExpr (.node .paren [.leaf lpar, t, .leaf rpar])
        (.paren (placeOf (lpar :: t.leaves ++ [rpar])) e)
  | call {func lpar rpar : Token} {t : Tree} {es : List Expr} (arguments : SpellsArgs t es) :
      SpellsExpr (.node .callArgs [.leaf func, .leaf lpar, t, .leaf rpar])
        (.call (placeOf (func :: lpar :: t.leaves ++ [rpar])) func.text es)
  | callEmpty {func lpar rpar : Token} :
      SpellsExpr (.node .callEmpty [.leaf func, .leaf lpar, .leaf rpar])
        (.call (placeOf [func, lpar, rpar]) func.text [])

inductive SpellsArgs : Tree → List Expr → Prop
  | many {t tail : Tree} {e : Expr} {es : List Expr} (first : SpellsExpr t e)
      (rest : SpellsArgs tail es) : SpellsArgs (.node .argsMany [t, tail]) (e :: es)
  | one {t : Tree} {e : Expr} (only : SpellsExpr t e) : SpellsArgs (.node .argsOne [t]) [e]
  | tailFirst {comma : Token} {t : Tree} {e : Expr} (first : SpellsExpr t e) :
      SpellsArgs (.node .argTailFirst [.leaf comma, t]) [e]
  | tailMore {comma : Token} {t tail : Tree} {e : Expr} {es : List Expr}
      (more : SpellsArgs tail es) (last : SpellsExpr t e) :
      SpellsArgs (.node .argTailMore [tail, .leaf comma, t]) (es ++ [e])

end

/-- The statement that an expression makes: an assignment stays one. -/
inductive Performs : Expr → Stmt → Prop
  | assign {loc : Location} {x : String} {value : Option Expr} :
      Performs (.assign loc x value) (.assign loc x value)
  | expr {e : Expr} (other : ∀ loc x value, e ≠ .assign loc x value) :
      Performs e (.expr e.location e)

/-! ## Declarations of variables -/

/-- The name of the type that a tree spells. -/
inductive SpellsType : Tree → String → Prop
  | mk {type : BasicType} {token : Token} :
      SpellsType (.node (.typeName type) [.leaf token]) token.text

/-- The variable that a tree declares. -/
inductive SpellsVar (source : List Char) : Tree → VarDecl → Prop
  | plain {t : Tree} {type : String} {name : Token} (typed : SpellsType t type) :
      SpellsVar source (.node (.varSpec false false) [t, .leaf name])
        { loc := placeOf (t.leaves ++ [name]), name := name.text, type := some type }
  | constant {const : Token} {t : Tree} {type : String} {name : Token} (typed : SpellsType t type) :
      SpellsVar source (.node (.varSpec true false) [.leaf const, t, .leaf name])
        { loc := placeOf (const :: t.leaves ++ [name]), name := name.text, type := some type,
          isConst := true }
  | plainInit {t v : Tree} {type : String} {name equal : Token} {e : Expr}
      (typed : SpellsType t type) (value : SpellsExpr v e) :
      SpellsVar source (.node (.varSpec false true) [t, .leaf name, .leaf equal, v])
        { loc := placeOf (t.leaves ++ name :: equal :: v.leaves), name := name.text,
          type := some type, value := some e, initText := sliceOf source v.leaves }
  | constantInit {const : Token} {t v : Tree} {type : String} {name equal : Token} {e : Expr}
      (typed : SpellsType t type) (value : SpellsExpr v e) :
      SpellsVar source (.node (.varSpec true true) [.leaf const, t, .leaf name, .leaf equal, v])
        { loc := placeOf (const :: t.leaves ++ name :: equal :: v.leaves), name := name.text,
          type := some type, value := some e, isConst := true,
          initText := sliceOf source v.leaves }

/-! ## Statements -/

/-- The start of a `for` loop. -/
inductive SpellsInit (source : List Char) : Tree → Option Stmt → Prop
  | var {t : Tree} {d : VarDecl} (spec : SpellsVar source t d) :
      SpellsInit source (.node .forInitVar [t]) (some (.varDecl d))
  | expr {t : Tree} {e : Expr} {s : Stmt} (value : SpellsExpr t e) (performs : Performs e s) :
      SpellsInit source (.node .forInitExpr [t]) (some s)
  | empty : SpellsInit source (.node .forInitEmpty []) none

/-- The condition of a `for` loop. -/
inductive SpellsCond : Tree → Option Expr → Prop
  | expr {t : Tree} {e : Expr} (value : SpellsExpr t e) :
      SpellsCond (.node .forCondExpr [t]) (some e)
  | empty : SpellsCond (.node .forCondEmpty []) none

/-- The step of a `for` loop. -/
inductive SpellsUpdate : Tree → Option Stmt → Prop
  | expr {t : Tree} {e : Expr} {s : Stmt} (value : SpellsExpr t e) (performs : Performs e s) :
      SpellsUpdate (.node .forUpdateExpr [t]) (some s)
  | empty : SpellsUpdate (.node .forUpdateEmpty []) none

mutual

/-- The statement that a tree spells. -/
inductive SpellsStmt (source : List Char) : Tree → Stmt → Prop
  | varDecl {t : Tree} {semicolon : Token} {d : VarDecl} (spec : SpellsVar source t d) :
      SpellsStmt source (.node (.stmt .varDecl) [.node .varDecl [t, .leaf semicolon]]) (.varDecl d)
  | block {t : Tree} {b : Block} (body : SpellsBlock source t b) :
      SpellsStmt source (.node (.stmt .block) [t]) (.block (placeOf t.leaves) b)
  | form {form : StmtForm} {t : Tree} {s : Stmt} (other : form ≠ .varDecl ∧ form ≠ .block)
      (part : SpellsStmt source t s) : SpellsStmt source (.node (.stmt form) [t]) s
  | expr {t : Tree} {semicolon : Token} {e : Expr} {s : Stmt} (value : SpellsExpr t e)
      (performs : Performs e s) : SpellsStmt source (.node .exprStmt [t, .leaf semicolon]) s
  | ifThen {kw lpar rpar : Token} {c y : Tree} {e : Expr} {yes : Block}
      (condition : SpellsExpr c e) (thenBlock : SpellsBlock source y yes) :
      SpellsStmt source (.node .ifThen [.leaf kw, .leaf lpar, c, .leaf rpar, y])
        (.ifThen (placeOf (kw :: lpar :: c.leaves ++ rpar :: y.leaves)) e yes none)
  | ifElse {kw lpar rpar elseKw : Token} {c y n : Tree} {e : Expr} {yes no : Block}
      (condition : SpellsExpr c e) (thenBlock : SpellsBlock source y yes)
      (elseBlock : SpellsBlock source n no) :
      SpellsStmt source
        (.node .ifElse [.leaf kw, .leaf lpar, c, .leaf rpar, y, .leaf elseKw, n])
        (.ifThen (placeOf (kw :: lpar :: c.leaves ++ rpar :: y.leaves ++ elseKw :: n.leaves)) e yes
          (some no))
  | ifElseIf {kw lpar rpar elseKw : Token} {c y n : Tree} {e : Expr} {yes : Block} {no : Stmt}
      (condition : SpellsExpr c e) (thenBlock : SpellsBlock source y yes)
      (elseIf : SpellsStmt source n no) :
      SpellsStmt source
        (.node .ifElseIf [.leaf kw, .leaf lpar, c, .leaf rpar, y, .leaf elseKw, n])
        (.ifThen (placeOf (kw :: lpar :: c.leaves ++ rpar :: y.leaves ++ elseKw :: n.leaves)) e yes
          (some (.mk (placeOf n.leaves) [no])))
  | whileLoop {kw lpar rpar : Token} {c b : Tree} {e : Expr} {body : Block}
      (condition : SpellsExpr c e) (loop : SpellsBlock source b body) :
      SpellsStmt source (.node .whileLoop [.leaf kw, .leaf lpar, c, .leaf rpar, b])
        (.whileLoop (placeOf (kw :: lpar :: c.leaves ++ rpar :: b.leaves)) e body)
  | forLoop {kw lpar semi semi' rpar : Token} {i c u b : Tree} {init : Option Stmt}
      {condition : Option Expr} {update : Option Stmt} {body : Block}
      (start : SpellsInit source i init) (test : SpellsCond c condition)
      (step : SpellsUpdate u update) (loop : SpellsBlock source b body) :
      SpellsStmt source
        (.node .forLoop [.leaf kw, .leaf lpar, i, .leaf semi, c, .leaf semi', u, .leaf rpar, b])
        (.forLoop (placeOf (kw :: lpar :: i.leaves ++ semi :: c.leaves ++ semi' :: u.leaves ++
          rpar :: b.leaves)) init condition update body)
  | returnValue {kw semicolon : Token} {t : Tree} {e : Expr} (value : SpellsExpr t e) :
      SpellsStmt source (.node .returnValue [.leaf kw, t, .leaf semicolon])
        (.result (placeOf (kw :: t.leaves ++ [semicolon])) (some e))
  | returnBare {kw semicolon : Token} :
      SpellsStmt source (.node .returnBare [.leaf kw, .leaf semicolon])
        (.result (placeOf [kw, semicolon]) none)

inductive SpellsBlock (source : List Char) : Tree → Block → Prop
  | full {lbrace rbrace : Token} {t : Tree} {ss : List Stmt} (body : SpellsStmts source t ss) :
      SpellsBlock source (.node .blockFull [.leaf lbrace, t, .leaf rbrace])
        (.mk (placeOf (lbrace :: t.leaves ++ [rbrace])) ss)
  | empty {lbrace rbrace : Token} :
      SpellsBlock source (.node .blockEmpty [.leaf lbrace, .leaf rbrace])
        (.mk (placeOf [lbrace, rbrace]) [])

inductive SpellsStmts (source : List Char) : Tree → List Stmt → Prop
  | first {t : Tree} {s : Stmt} (only : SpellsStmt source t s) :
      SpellsStmts source (.node .stmtsFirst [t]) [s]
  | more {ts t : Tree} {ss : List Stmt} {s : Stmt} (before : SpellsStmts source ts ss)
      (last : SpellsStmt source t s) : SpellsStmts source (.node .stmtsMore [ts, t]) (ss ++ [s])

end

/-! ## Functions and programs -/

/-- The parameter that a tree spells. -/
inductive SpellsParam : Tree → Param → Prop
  | mk {t : Tree} {type : String} {name : Token} (typed : SpellsType t type) :
      SpellsParam (.node .param [t, .leaf name])
        ⟨placeOf (t.leaves ++ [name]), name.text, some type⟩

/-- The parameters that a tree spells, in the order of the text. -/
inductive SpellsParams : Tree → List Param → Prop
  | many {t tail : Tree} {p : Param} {ps : List Param} (first : SpellsParam t p)
      (rest : SpellsParams tail ps) : SpellsParams (.node .paramsMany [t, tail]) (p :: ps)
  | one {t : Tree} {p : Param} (only : SpellsParam t p) : SpellsParams (.node .paramsOne [t]) [p]
  | tailFirst {comma : Token} {t : Tree} {p : Param} (first : SpellsParam t p) :
      SpellsParams (.node .paramTailFirst [.leaf comma, t]) [p]
  | tailMore {comma : Token} {t tail : Tree} {p : Param} {ps : List Param}
      (more : SpellsParams tail ps) (last : SpellsParam t p) :
      SpellsParams (.node .paramTailMore [tail, .leaf comma, t]) (ps ++ [p])

/-- The result that the parts before the name of a function spell. -/
inductive SpellsResult : ResultForm → List Tree → Option String → Prop
  | typed {t : Tree} {type : String} (typed : SpellsType t type) :
      SpellsResult .typed [t] (some type)
  | void {token : Token} : SpellsResult .void [.leaf token] (some "void")
  | absent : SpellsResult .absent [] none

/-- The function that a tree defines. -/
inductive SpellsFunction (source : List Char) : Tree → FunctionDef → Prop
  | params {form : ResultForm} {ts : List Tree} {result : Option String} {name lpar rpar : Token}
      {t b : Tree} {ps : List Param} {body : Block} (type : SpellsResult form ts result)
      (parameters : SpellsParams t ps) (block : SpellsBlock source b body) :
      SpellsFunction source
        (.node (.funcDef form true) (ts ++ [.leaf name, .leaf lpar, t, .leaf rpar, b]))
        ⟨placeOf (Tree.leavesAll ts ++ name :: lpar :: t.leaves ++ rpar :: b.leaves), name.text, ps,
          result, body⟩
  | noParams {form : ResultForm} {ts : List Tree} {result : Option String}
      {name lpar rpar : Token} {b : Tree} {body : Block} (type : SpellsResult form ts result)
      (block : SpellsBlock source b body) :
      SpellsFunction source
        (.node (.funcDef form false) (ts ++ [.leaf name, .leaf lpar, .leaf rpar, b]))
        ⟨placeOf (Tree.leavesAll ts ++ name :: lpar :: rpar :: b.leaves), name.text, [], result,
          body⟩

/-- The declaration that a tree spells. -/
inductive SpellsDecl (source : List Char) : Tree → Decl → Prop
  | var {t : Tree} {semicolon : Token} {d : VarDecl} (spec : SpellsVar source t d) :
      SpellsDecl source (.node .declVar [.node .varDecl [t, .leaf semicolon]]) (.var d)
  | func {t : Tree} {f : FunctionDef} (function : SpellsFunction source t f) :
      SpellsDecl source (.node .declFunc [t]) (.func f)

/-- The declarations that a tree spells, in the order of the text. -/
inductive SpellsDecls (source : List Char) : Tree → List Decl → Prop
  | first {t : Tree} {d : Decl} (only : SpellsDecl source t d) :
      SpellsDecls source (.node .declsFirst [t]) [d]
  | more {ts t : Tree} {ds : List Decl} {d : Decl} (before : SpellsDecls source ts ds)
      (last : SpellsDecl source t d) : SpellsDecls source (.node .declsMore [ts, t]) (ds ++ [d])

/-- The program that a tree spells. -/
inductive SpellsProgram (source : List Char) : Tree → Program → Prop
  | decls {t : Tree} {ds : List Decl} (declarations : SpellsDecls source t ds) :
      SpellsProgram source (.node .programDecls [t]) ⟨ds⟩
  | empty : SpellsProgram source (.node .programEmpty []) ⟨[]⟩

end Sema
