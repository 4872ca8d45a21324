import Sema.Proofs.Parsing.Strict

/-!
# The grammar is unambiguous

No tokens have two derivations from one category. For programs this is what strict parsing gives. A
phrase of any other category is a part of a phrase nearer to the program (`Unambiguous.part`), so
two derivations of it would make two of the whole.
-/

namespace Sema

def Category.Unambiguous (c : Category) : Prop :=
  ∀ (w : List Token) (t t' : Tree), t.Derives (.phrase c) w → t'.Derives (.phrase c) w → t = t'

@[simp] theorem Tree.symbol_leaf (t : Token) : (Tree.leaf t).symbol = .terminal t.kind := rfl

@[simp] theorem Tree.symbol_node (r : Rule) (ts : List Tree) :
    (Tree.node r ts).symbol = .phrase r.category := rfl

theorem allWellFormed_append {ts us : List Tree} (hts : Tree.AllWellFormed ts)
    (hus : Tree.AllWellFormed us) : Tree.AllWellFormed (ts ++ us) := by
  rw [Automaton.Stack.allWellFormed_iff] at hts hus ⊢
  intro t ht
  exact (List.mem_append.mp ht).elim (hts t) (hus t)

theorem Tree.Derives.within {t : Tree} {c : Category} {w : List Token}
    (h : t.Derives (.phrase c) w) {r : Rule} (before after : List Tree)
    (hbefore : Tree.AllWellFormed before) (hafter : Tree.AllWellFormed after)
    (hbody : before.map Tree.symbol ++ .phrase c :: after.map Tree.symbol = r.body) :
    (Tree.node r (before ++ t :: after)).Derives (.phrase r.category)
      (Tree.leavesAll before ++ (w ++ Tree.leavesAll after)) := by
  refine ⟨⟨?_, allWellFormed_append hbefore ⟨h.wellFormed, hafter⟩⟩, rfl, ?_⟩
  · rw [List.map_append, List.map_cons, h.symbol, hbody]
  · rw [Tree.leaves, Automaton.Stack.leavesAll_append, Tree.leavesAll, h.leaves]

/-- A category that occurs in the parts of a rule is unambiguous if the category of the rule is. -/
theorem Category.Unambiguous.part {r : Rule} (h : r.category.Unambiguous) {c : Category}
    (before after : List Tree) (hbefore : Tree.AllWellFormed before)
    (hafter : Tree.AllWellFormed after)
    (hbody : before.map Tree.symbol ++ .phrase c :: after.map Tree.symbol = r.body) :
    c.Unambiguous := by
  intro w t t' ht ht'
  have hwhole := h _ _ _ (ht.within before after hbefore hafter hbody)
    (ht'.within before after hbefore hafter hbody)
  injection hwhole with _ hparts
  exact (List.cons.inj (List.append_cancel_left hparts)).1

/-! ## Phrases to stand around others -/

def Terminal.leaf (kind : Terminal) : Tree :=
  .leaf ⟨kind, "", .start, .start⟩

def Tree.emptyBlock : Tree :=
  .node .blockEmpty [Terminal.lbrace.leaf, Terminal.rbrace.leaf]

def Tree.someParam : Tree :=
  .node .param [.node (.typeName .int) [Terminal.int.leaf], Terminal.name.leaf]

def Tree.someExpr : Tree :=
  .node .expr [.node .assignNone [.node (.operand .or) [.node (.operand .and)
    [.node (.operand .equality) [.node (.operand .relation) [.node (.operand .sum)
      [.node (.operand .product) [.node .unaryAtom [.node .name [Terminal.name.leaf]]]]]]]]]]

/-! ## From the program to its parts -/

theorem Category.Unambiguous.only {r : Rule} (h : r.category.Unambiguous) {c : Category}
    (hbody : [.phrase c] = r.body) : c.Unambiguous :=
  h.part [] [] trivial trivial hbody

theorem Tree.emptyBlock_wellFormed : Tree.emptyBlock.WellFormed := ⟨rfl, trivial, trivial, trivial⟩

theorem Tree.someParam_wellFormed : Tree.someParam.WellFormed :=
  ⟨rfl, ⟨rfl, trivial, trivial⟩, trivial, trivial⟩

theorem Tree.someExpr_wellFormed : Tree.someExpr.WellFormed := by
  simp [someExpr, WellFormed, AllWellFormed, Rule.body, Rule.category, Level.category,
    Level.operand, Terminal.leaf]

namespace Category

theorem unambiguous_program : program.Unambiguous :=
  fun _ _ _ => Parsing.eq_of_derives_program

theorem unambiguous_decl : decl.Unambiguous :=
  have hdecls : decls.Unambiguous := unambiguous_program.only (r := .programDecls) rfl
  hdecls.only (r := .declsFirst) rfl

theorem unambiguous_funcDef : funcDef.Unambiguous :=
  unambiguous_decl.only (r := .declFunc) rfl

theorem unambiguous_params : params.Unambiguous := by
  refine unambiguous_funcDef.part (r := .funcDef .absent true)
    [Terminal.name.leaf, Terminal.lpar.leaf] [Terminal.rpar.leaf, .emptyBlock] ?_ ?_ rfl
  · exact ⟨trivial, trivial, trivial⟩
  · exact ⟨trivial, Tree.emptyBlock_wellFormed, trivial⟩

theorem unambiguous_block : block.Unambiguous := by
  refine unambiguous_funcDef.part (r := .funcDef .absent false)
    [Terminal.name.leaf, Terminal.lpar.leaf, Terminal.rpar.leaf] [] ?_ trivial rfl
  exact ⟨trivial, trivial, trivial, trivial⟩

theorem unambiguous_stmts : stmts.Unambiguous :=
  unambiguous_block.part (r := .blockFull) [Terminal.lbrace.leaf] [Terminal.rbrace.leaf]
    ⟨trivial, trivial⟩ ⟨trivial, trivial⟩ rfl

theorem unambiguous_form (form : StmtForm) : form.category.Unambiguous :=
  have hstmt : stmt.Unambiguous := unambiguous_stmts.only (r := .stmtsFirst) rfl
  hstmt.only (r := .stmt form) rfl

theorem unambiguous_header : forInit.Unambiguous ∧ forCond.Unambiguous ∧ forUpdate.Unambiguous := by
  have hloop : forStmt.Unambiguous := unambiguous_form .forLoop
  have hempty : ∀ r : Rule, r.body = [] → (Tree.node r []).WellFormed := fun r hr =>
    ⟨hr.symm, trivial⟩
  have hblock := Tree.emptyBlock_wellFormed
  refine ⟨?_, ?_, ?_⟩
  · refine hloop.part (r := .forLoop) [Terminal.forKw.leaf, Terminal.lpar.leaf]
      [Terminal.semicolon.leaf, .node .forCondEmpty [], Terminal.semicolon.leaf,
        .node .forUpdateEmpty [], Terminal.rpar.leaf, .emptyBlock] ?_ ?_ rfl
    · exact ⟨trivial, trivial, trivial⟩
    · exact ⟨trivial, hempty _ rfl, trivial, hempty _ rfl, trivial, hblock, trivial⟩
  · refine hloop.part (r := .forLoop) [Terminal.forKw.leaf, Terminal.lpar.leaf,
      .node .forInitEmpty [], Terminal.semicolon.leaf]
      [Terminal.semicolon.leaf, .node .forUpdateEmpty [], Terminal.rpar.leaf, .emptyBlock] ?_ ?_ rfl
    · exact ⟨trivial, trivial, hempty _ rfl, trivial, trivial⟩
    · exact ⟨trivial, hempty _ rfl, trivial, hblock, trivial⟩
  · refine hloop.part (r := .forLoop) [Terminal.forKw.leaf, Terminal.lpar.leaf,
      .node .forInitEmpty [], Terminal.semicolon.leaf, .node .forCondEmpty [],
      Terminal.semicolon.leaf] [Terminal.rpar.leaf, .emptyBlock] ?_ ?_ rfl
    · exact ⟨trivial, trivial, hempty _ rfl, trivial, hempty _ rfl, trivial, trivial⟩
    · exact ⟨trivial, hblock, trivial⟩

theorem unambiguous_expr : expr.Unambiguous :=
  have hstmt : exprStmt.Unambiguous := unambiguous_form .expr
  hstmt.part (r := .exprStmt) [] [Terminal.semicolon.leaf] trivial ⟨trivial, trivial⟩ rfl

theorem unambiguous_assign : assign.Unambiguous :=
  unambiguous_expr.only (r := .expr) rfl

theorem unambiguous_level (level : Level) :
    level.category.Unambiguous ∧ level.operand.Unambiguous := by
  have hor : orExpr.Unambiguous := unambiguous_assign.only (r := .assignNone) rfl
  have hand : andExpr.Unambiguous := hor.only (r := .operand .or) rfl
  have heq : eqExpr.Unambiguous := hand.only (r := .operand .and) rfl
  have hrel : relExpr.Unambiguous := heq.only (r := .operand .equality) rfl
  have hadd : addExpr.Unambiguous := hrel.only (r := .operand .relation) rfl
  have hmul : mulExpr.Unambiguous := hadd.only (r := .operand .sum) rfl
  have hunary : unary.Unambiguous := hmul.only (r := .operand .product) rfl
  cases level with
  | or => exact ⟨hor, hand⟩
  | and => exact ⟨hand, heq⟩
  | equality => exact ⟨heq, hrel⟩
  | relation => exact ⟨hrel, hadd⟩
  | sum => exact ⟨hadd, hmul⟩
  | product => exact ⟨hmul, hunary⟩

theorem unambiguous_atom : atom.Unambiguous :=
  (unambiguous_level .product).2.only (r := .unaryAtom) rfl

theorem unambiguous_args : args.Unambiguous :=
  unambiguous_atom.part (r := .callArgs) [Terminal.name.leaf, Terminal.lpar.leaf]
    [Terminal.rpar.leaf] ⟨trivial, trivial, trivial⟩ ⟨trivial, trivial⟩ rfl

theorem unambiguous (c : Category) : c.Unambiguous := by
  have hparam : param.Unambiguous := unambiguous_params.only (r := .paramsOne) rfl
  have hvar : varDecl.Unambiguous := unambiguous_decl.only (r := .declVar) rfl
  cases c with
  | program => exact unambiguous_program
  | decls => exact unambiguous_program.only (r := .programDecls) rfl
  | decl => exact unambiguous_decl
  | varDecl => exact hvar
  | varSpec =>
    exact hvar.part (r := .varDecl) [] [Terminal.semicolon.leaf] trivial ⟨trivial, trivial⟩ rfl
  | funcDef => exact unambiguous_funcDef
  | params => exact unambiguous_params
  | paramTail =>
    exact unambiguous_params.part (r := .paramsMany) [.someParam] []
      ⟨Tree.someParam_wellFormed, trivial⟩ trivial rfl
  | param => exact hparam
  | typeName =>
    exact hparam.part (r := .param) [] [Terminal.name.leaf] trivial ⟨trivial, trivial⟩ rfl
  | block => exact unambiguous_block
  | stmts => exact unambiguous_stmts
  | stmt => exact unambiguous_stmts.only (r := .stmtsFirst) rfl
  | exprStmt => exact unambiguous_form .expr
  | ifStmt => exact unambiguous_form .ifThen
  | whileStmt => exact unambiguous_form .whileLoop
  | forStmt => exact unambiguous_form .forLoop
  | forInit => exact unambiguous_header.1
  | forCond => exact unambiguous_header.2.1
  | forUpdate => exact unambiguous_header.2.2
  | returnStmt => exact unambiguous_form .result
  | expr => exact unambiguous_expr
  | assign => exact unambiguous_assign
  | orExpr => exact (unambiguous_level .or).1
  | andExpr => exact (unambiguous_level .and).1
  | eqExpr => exact (unambiguous_level .equality).1
  | relExpr => exact (unambiguous_level .relation).1
  | addExpr => exact (unambiguous_level .sum).1
  | mulExpr => exact (unambiguous_level .product).1
  | unary => exact (unambiguous_level .product).2
  | atom => exact unambiguous_atom
  | args => exact unambiguous_args
  | argTail =>
    exact unambiguous_args.part (r := .argsMany) [.someExpr] []
      ⟨Tree.someExpr_wellFormed, trivial⟩ trivial rfl

end Category

end Sema
