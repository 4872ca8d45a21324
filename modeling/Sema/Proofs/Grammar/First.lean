import Sema.Grammar.Tree

/-!
# First and following tokens

Which tokens a phrase of a category starts with (`Category.first`), and whether it may be without
tokens (`Category.isEmptiable`). The leaves of every well-formed tree keep to both
(`Tree.leaves_start`).

In the parts of a rule, what comes after a phrase may follow it: the first token of the parts behind
it (`Rule.allows_of_mem_firstAll`), or, where these have none, what may follow the whole
(`Rule.allows_of_isEmptiable`).
-/

namespace Sema

/-! ## The rules of a category -/

def Category.rules : Category → List Rule
  | program => [.programDecls, .programEmpty]
  | decls => [.declsFirst, .declsMore]
  | decl => [.declVar, .declFunc]
  | varDecl => [.varDecl]
  | varSpec => [.varSpec false false, .varSpec false true, .varSpec true false, .varSpec true true]
  | funcDef =>
    [.funcDef .typed false, .funcDef .typed true, .funcDef .void false, .funcDef .void true,
      .funcDef .absent false, .funcDef .absent true]
  | params => [.paramsMany, .paramsOne]
  | paramTail => [.paramTailFirst, .paramTailMore]
  | param => [.param]
  | typeName => [.typeName .int, .typeName .float, .typeName .double, .typeName .string]
  | block => [.blockFull, .blockEmpty]
  | stmts => [.stmtsFirst, .stmtsMore]
  | stmt =>
    [.stmt .varDecl, .stmt .expr, .stmt .ifThen, .stmt .whileLoop, .stmt .forLoop, .stmt .result,
      .stmt .block]
  | exprStmt => [.exprStmt]
  | ifStmt => [.ifElse, .ifElseIf, .ifThen]
  | whileStmt => [.whileLoop]
  | forStmt => [.forLoop]
  | forInit => [.forInitVar, .forInitExpr, .forInitEmpty]
  | forCond => [.forCondExpr, .forCondEmpty]
  | forUpdate => [.forUpdateExpr, .forUpdateEmpty]
  | returnStmt => [.returnValue, .returnBare]
  | expr => [.expr]
  | assign => [.assignTo, .assignNone]
  | orExpr => [.binary .or, .operand .or]
  | andExpr => [.binary .and, .operand .and]
  | eqExpr => [.binary .eq, .binary .ne, .operand .equality]
  | relExpr => [.binary .lt, .binary .le, .binary .gt, .binary .ge, .operand .relation]
  | addExpr => [.binary .add, .binary .sub, .operand .sum]
  | mulExpr => [.binary .mul, .binary .div, .operand .product]
  | unary => [.unaryNot, .unaryAtom]
  | atom => [.intLit, .floatLit, .stringLit, .callArgs, .callEmpty, .name, .paren]
  | args => [.argsMany, .argsOne]
  | argTail => [.argTailFirst, .argTailMore]

def Category.all : List Category :=
  [program, decls, decl, varDecl, varSpec, funcDef, params, paramTail, param, typeName, block, stmts,
    stmt, exprStmt, ifStmt, whileStmt, forStmt, forInit, forCond, forUpdate, returnStmt, expr, assign,
    orExpr, andExpr, eqExpr, relExpr, addExpr, mulExpr, unary, atom, args, argTail]

theorem Category.mem_all (c : Category) : c ∈ all := by
  cases c <;> decide

theorem Rule.mem_rules (r : Rule) : r ∈ r.category.rules := by
  cases r with
  | varSpec isConst hasValue => cases isConst <;> cases hasValue <;> decide
  | funcDef result hasParams => cases result <;> cases hasParams <;> decide
  | typeName type => cases type <;> decide
  | stmt form => cases form <;> decide
  | binary op => cases op <;> decide
  | operand level => cases level <;> decide
  | _ => decide

theorem Rule.of_all_rules {p : Rule → Bool} (h : Category.all.all fun c => c.rules.all p)
    (r : Rule) : p r = true :=
  List.all_eq_true.mp (List.all_eq_true.mp h r.category r.category.mem_all) r r.mem_rules

/-- A test of a symbol by one of the tokens and one of the phrases. -/
def GrammarSymbol.test (p : Terminal → Bool) (q : Category → Bool) : GrammarSymbol → Bool
  | terminal kind => p kind
  | phrase category => q category

/-! ## First tokens -/

namespace Category

def exprStart : List Terminal :=
  [.bang, .lpar, .name, .intLit, .floatLit, .stringLit]

def typeStart : List Terminal :=
  [.int, .float, .double, .string]

/-- The tokens that a phrase of a category may start with. -/
def first : Category → List Terminal
  | program | decls | decl => declStart
  | varDecl | varSpec => .const :: typeStart
  | funcDef => .void :: .name :: typeStart
  | params | param | typeName => typeStart
  | paramTail | argTail => [.comma]
  | block => [.lbrace]
  | stmts | stmt => stmtStart
  | ifStmt => [.ifKw]
  | whileStmt => [.whileKw]
  | forStmt => [.forKw]
  | forInit => .const :: typeStart ++ exprStart
  | returnStmt => [.returnKw]
  | exprStmt | forCond | forUpdate | expr | assign | orExpr | andExpr | eqExpr | relExpr | addExpr
  | mulExpr | unary | args => exprStart
  | atom => [.lpar, .name, .intLit, .floatLit, .stringLit]

/-- Whether a phrase of a category may be without tokens. -/
def isEmptiable : Category → Bool
  | program | forInit | forCond | forUpdate => true
  | _ => false

end Category

namespace GrammarSymbol

/-- The tokens that what a symbol stands for may start with. -/
def first : GrammarSymbol → List Terminal
  | terminal kind => [kind]
  | phrase category => category.first

/-- Whether what a symbol stands for may be without tokens. -/
def isEmptiable : GrammarSymbol → Bool
  | terminal _ => false
  | phrase category => category.isEmptiable

/-- The tokens that what a list of symbols stands for may start with. -/
def firstAll : List GrammarSymbol → List Terminal
  | [] => []
  | x :: xs => if x.isEmptiable then x.first ++ firstAll xs else x.first

end GrammarSymbol

namespace Rule

open GrammarSymbol

theorem first_body (r : Rule) {kind : Terminal} (h : kind ∈ firstAll r.body) :
    kind ∈ r.category.first := by
  have hall := of_all_rules (p := fun r => (firstAll r.body).all (r.category.first.contains ·))
    (by decide +kernel) r
  simpa using List.all_eq_true.mp hall kind h

theorem isEmptiable_body (r : Rule) (h : r.body.all isEmptiable = true) :
    r.category.isEmptiable = true := by
  have hall := of_all_rules (p := fun r => !r.body.all isEmptiable || r.category.isEmptiable)
    (by decide +kernel) r
  simpa only [h, Bool.not_true, Bool.false_or] using hall

/-- Whether the parts `rest` of a phrase of category `c` have behind each phrase what may follow
that phrase: the first tokens of what is left, or else what may follow the whole. -/
def followed (c : Category) : List GrammarSymbol → Bool
  | [] => true
  | .terminal _ :: rest => followed c rest
  | .phrase d :: rest =>
    (firstAll rest).all (d.followTokens.contains ·) &&
      (!rest.all isEmptiable ||
        c.followTokens.all (d.followTokens.contains ·) && (!c.endsProgram || d.endsProgram)) &&
      followed c rest

theorem followed_body (r : Rule) : followed r.category r.body = true :=
  of_all_rules (p := fun r => followed r.category r.body) (by decide +kernel) r

theorem followed_of_append {c : Category} (xs : List GrammarSymbol) {ys : List GrammarSymbol}
    (h : followed c (xs ++ ys) = true) : followed c ys = true := by
  induction xs with
  | nil => exact h
  | cons x xs ih =>
    cases x with
    | terminal kind => exact ih h
    | phrase d =>
      simp only [List.cons_append, followed, Bool.and_eq_true] at h
      exact ih h.2

/-- What starts the parts behind a phrase may follow the phrase. -/
theorem allows_of_mem_firstAll {c d : Category} {rest : List GrammarSymbol}
    (h : followed c (.phrase d :: rest) = true) {kind : Terminal} (hkind : kind ∈ firstAll rest) :
    d.allows (.token kind) = true := by
  simp only [followed, Bool.and_eq_true] at h
  exact List.all_eq_true.mp h.1.1 kind hkind

/-- Where the parts behind a phrase have no tokens, what may follow the whole may follow it. -/
theorem allows_of_isEmptiable {c d : Category} {rest : List GrammarSymbol}
    (h : followed c (.phrase d :: rest) = true) (hrest : rest.all isEmptiable = true)
    {la : Lookahead} (hla : c.allows la = true) : d.allows la = true := by
  simp only [followed, Bool.and_eq_true, hrest, Bool.not_true, Bool.false_or] at h
  obtain ⟨⟨-, htokens, hend⟩, -⟩ := h
  cases la with
  | token kind =>
    rw [Category.allows, List.contains_iff_mem] at hla
    exact List.all_eq_true.mp htokens kind hla
  | endOfInput =>
    show d.endsProgram = true
    rw [Category.allows] at hla
    simpa only [hla, Bool.not_true, Bool.false_or] using hend

end Rule

/-! ## The leaves of trees -/

namespace Tree

open GrammarSymbol

mutual

/-- A tree starts with a first token of its symbol, unless it has no tokens. -/
theorem leaves_start : ∀ {t : Tree}, t.WellFormed →
    (t.leaves = [] → t.symbol.isEmptiable = true) ∧
      ∀ token rest, t.leaves = token :: rest → token.kind ∈ t.symbol.first
  | .leaf token, _ => by
    refine ⟨fun h => (nomatch h), fun token' rest h => ?_⟩
    cases h
    exact List.mem_singleton.mpr rfl
  | .node r children, h => by
    obtain ⟨hbody, hchildren⟩ := h
    obtain ⟨hnil, hcons⟩ := leavesAll_start hchildren
    rw [hbody] at hnil hcons
    exact ⟨fun h => r.isEmptiable_body (hnil h),
      fun token rest h => r.first_body (hcons token rest h)⟩

theorem leavesAll_start : ∀ {ts : List Tree}, AllWellFormed ts →
    (leavesAll ts = [] → (ts.map symbol).all isEmptiable = true) ∧
      ∀ token rest, leavesAll ts = token :: rest → token.kind ∈ firstAll (ts.map symbol)
  | [], _ => ⟨fun _ => rfl, fun _ _ h => nomatch h⟩
  | t :: ts, h => by
    obtain ⟨ht, hts⟩ := h
    obtain ⟨hnil, hcons⟩ := leaves_start ht
    obtain ⟨hnil', hcons'⟩ := leavesAll_start hts
    rw [leavesAll, List.map_cons]
    cases hl : t.leaves with
    | nil =>
      have he := hnil hl
      refine ⟨fun h => ?_, fun token rest h => ?_⟩
      · rw [List.all_cons, he, hnil' h, Bool.and_self]
      · rw [firstAll, if_pos he]
        exact List.mem_append_right _ (hcons' token rest h)
    | cons first others =>
      refine ⟨fun h => (nomatch h), fun token rest h => ?_⟩
      cases h
      have hfirst := hcons _ _ hl
      rw [firstAll]
      split
      · exact List.mem_append_left _ hfirst
      · exact hfirst

end

end Tree

end Sema
