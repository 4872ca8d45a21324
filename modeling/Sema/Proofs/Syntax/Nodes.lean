import Mathlib.Data.List.Forall2
import Sema.Proofs.Syntax.Children
import Sema.Proofs.Syntax.InitTexts

/-!
# Nodes and their phrases

The phrases of a derivation tree that the nodes of a program are made from (`Tree.phrases`), like the
nodes with the outer ones first and else in the order of the source. The two lists go together: each
node is made from its phrase, has the place of it and, if it declares a variable, the text of the
initializer in it (`SpellsProgram.phrases`).

Most phrases make one node and some make none, as the rules for precedence and for lists add nothing
of their own. Two phrases make two nodes: a block that is a statement, and the `if` after an `else`,
which stands in a block of its own.
-/

namespace Sema

/-! ## Phrases -/

/-- Whether a phrase is an assignment, without regard to the rules that add nothing. -/
def Tree.isAssignment : Tree → Bool
  | .node .assignTo _ => true
  | .node .expr [t] | .node .assignNone [t] | .node (.operand _) [t] | .node .unaryAtom [t] =>
    t.isAssignment
  | _ => false

/-- Whether the phrases of a rule make nodes of their own. -/
@[simp] def Rule.isNode : Rule → Bool
  | .funcDef _ _ | .param | .varSpec _ _ | .blockFull | .blockEmpty | .ifElse | .ifElseIf | .ifThen
  | .whileLoop | .forLoop | .returnValue | .returnBare | .assignTo | .binary _ | .unaryNot | .intLit
  | .floatLit | .stringLit | .callArgs | .callEmpty | .name | .paren => true
  | _ => false

/-- The phrases that a phrase puts before those of its parts: itself, if it makes a node, and for an
expression or a block that is a statement the phrase of this statement, without a semicolon. An
assignment that is a statement makes one node only. -/
@[simp] def Rule.ownPhrases : Rule → List Tree → List Tree
  | .exprStmt, [t, _] | .forInitExpr, [t] | .forUpdateExpr, [t] =>
    if t.isAssignment then [] else [t]
  | .stmt .block, [t] => [t]
  | r, ts => if r.isNode then [.node r ts] else []

mutual

/-- The phrases that the nodes of a tree are made from, in the order of the nodes. The `if` after an
`else` is there twice, first for its block. -/
@[simp] def Tree.phrases : Tree → List Tree
  | .leaf _ => []
  | .node .ifElseIf [kw, lpar, condition, rpar, thenBlock, elseKw, elseIf] =>
    .node .ifElseIf [kw, lpar, condition, rpar, thenBlock, elseKw, elseIf] ::
      (condition.phrases ++ (thenBlock.phrases ++ elseIf :: elseIf.phrases))
  | .node r ts => r.ownPhrases ts ++ phrasesAll ts

@[simp] def Tree.phrasesAll : List Tree → List Tree
  | [] => []
  | t :: ts => t.phrases ++ phrasesAll ts

end

/-- The kinds of node that the phrases of a rule make. -/
inductive Rule.Makes : Rule → Node → Prop
  | function {result : ResultForm} {hasParams : Bool} {f : FunctionDef} :
      Makes (.funcDef result hasParams) (.function f)
  | param {p : Param} : Makes .param (.param p)
  | var {isConst hasValue : Bool} {d : VarDecl} (isConst_eq : d.isConst = isConst)
      (isSome_eq : d.value.isSome = hasValue) : Makes (.varSpec isConst hasValue) (.var d)
  | block {r : Rule} {b : Block} (isBlock : r.category = .block) : Makes r (.block b)
  | elseIf {r : Rule} {loc : Location} {condition : Expr} {thenBlock : Block}
      {elseBlock : Option Block} (isIf : r.category = .ifStmt) :
      Makes r (.block (.mk loc [.ifThen loc condition thenBlock elseBlock]))
  | blockStmt {r : Rule} {loc : Location} {body : Block} (isBlock : r.category = .block) :
      Makes r (.stmt (.block loc body))
  | assignStmt {loc : Location} {x : String} {value : Option Expr} :
      Makes .assignTo (.stmt (.assign loc x value))
  | exprStmt {loc : Location} {value : Expr} : Makes .expr (.stmt (.expr loc value))
  | ifThen {r : Rule} {loc : Location} {condition : Expr} {thenBlock : Block}
      {elseBlock : Option Block} (isIf : r.category = .ifStmt) :
      Makes r (.stmt (.ifThen loc condition thenBlock elseBlock))
  | whileLoop {loc : Location} {condition : Expr} {body : Block} :
      Makes .whileLoop (.stmt (.whileLoop loc condition body))
  | forLoop {loc : Location} {init : Option Stmt} {condition : Option Expr} {update : Option Stmt}
      {body : Block} : Makes .forLoop (.stmt (.forLoop loc init condition update body))
  | returnValue {loc : Location} {value : Expr} :
      Makes .returnValue (.stmt (.result loc (some value)))
  | returnBare {loc : Location} : Makes .returnBare (.stmt (.result loc none))
  | int {loc : Location} {value : Int} : Makes .intLit (.expr (.int loc value))
  | float {loc : Location} {bits : UInt64} : Makes .floatLit (.expr (.float loc bits))
  | string {loc : Location} {text : String} : Makes .stringLit (.expr (.string loc text))
  | name {loc : Location} {x : String} : Makes .name (.expr (.name loc x))
  | paren {loc : Location} {value : Expr} : Makes .paren (.expr (.paren loc value))
  | not {loc : Location} {operand : Expr} : Makes .unaryNot (.expr (.not loc operand))
  | binary {loc : Location} {op : BinaryOp} {left right : Expr} :
      Makes (.binary op) (.expr (.binary loc op.text left right))
  | assign {loc : Location} {x : String} {value : Expr} :
      Makes .assignTo (.expr (.assign loc x (some value)))
  | call {loc : Location} {func : String} {args : List Expr} :
      Makes .callArgs (.expr (.call loc func args))
  | callEmpty {loc : Location} {func : String} : Makes .callEmpty (.expr (.call loc func []))

/-- The node `n` is made from the phrase `t`: it has the place of the phrase and, if it declares a
variable, the text of the initializer in it. -/
structure Tree.Makes (source : List Char) (t : Tree) (n : Node) : Prop where
  rule : ∃ r ts, t = .node r ts ∧ r.Makes n
  place : n.location = placeOf t.leaves
  initText : ∀ d, n = .var d → [d.initText] = t.initTexts source

variable {source : List Char}

theorem Tree.phrases_node {r : Rule} (hr : r ≠ .ifElseIf) (ts : List Tree) :
    (Tree.node r ts).phrases = r.ownPhrases ts ++ phrasesAll ts := by
  rw [phrases]
  exact fun _ _ _ _ _ _ _ h => absurd h hr

theorem Rule.ownPhrases_of_isNode {r : Rule} (h : r.isNode = true) (ts : List Tree) :
    r.ownPhrases ts = [.node r ts] := by
  unfold ownPhrases
  split
  · cases h
  · cases h
  · cases h
  · cases h
  · rw [if_pos h]

theorem Rule.mem_ownPhrases {r : Rule} {ts : List Tree} {t : Tree} (h : t ∈ r.ownPhrases ts) :
    t = .node r ts ∨ t ∈ ts := by
  unfold ownPhrases at h
  split at h <;> grind

theorem Tree.mem_phrasesAll {ts : List Tree} {t : Tree} :
    t ∈ phrasesAll ts ↔ ∃ part ∈ ts, t ∈ part.phrases := by
  induction ts with
  | nil => simp
  | cons part ts ih => simp [ih]

theorem Tree.mem_phrases_node {r : Rule} {ts : List Tree} {t : Tree}
    (h : t ∈ (Tree.node r ts).phrases) :
    t = .node r ts ∨ ∃ part ∈ ts, t = part ∨ t ∈ part.phrases := by
  unfold phrases at h
  split at h
  · cases h
  · next heq =>
    obtain ⟨rfl, rfl⟩ := Tree.node.inj heq
    simp only [List.mem_cons, List.mem_append] at h
    rcases h with h | h | h | h | h
    · exact .inl h
    · exact .inr ⟨_, by simp, .inr h⟩
    · exact .inr ⟨_, by simp, .inr h⟩
    · exact .inr ⟨_, by simp, .inl h⟩
    · exact .inr ⟨_, by simp, .inr h⟩
  · next heq =>
    obtain ⟨rfl, rfl⟩ := Tree.node.inj heq
    rw [List.mem_append, mem_phrasesAll] at h
    rcases h with h | ⟨part, hpart, h⟩
    · exact (Rule.mem_ownPhrases h).imp_right fun h => ⟨t, h, .inl rfl⟩
    · exact .inr ⟨part, hpart, .inr h⟩

theorem Tree.exists_occurs {root t : Tree} (h : t ∈ root.phrases) :
    ∃ path u v, root.Occurs path u t v := by
  induction root using Tree.ind with
  | leaf token => exact absurd h List.not_mem_nil
  | node r ts ih =>
    rcases mem_phrases_node h with rfl | ⟨part, hpart, hphrase⟩
    · exact ⟨_, _, _, .root⟩
    · obtain ⟨us, vs, rfl⟩ := List.append_of_mem hpart
      have hoccurs : (Tree.node r (us ++ part :: vs)).Occurs _ _ part _ := .part .root
      rcases hphrase with rfl | hphrase
      · exact ⟨_, _, _, hoccurs⟩
      · obtain ⟨path, u, v, htree⟩ := ih part hpart hphrase
        exact ⟨_, _, _, hoccurs.trans htree⟩

theorem Tree.Makes.node {r : Rule} {ts : List Tree} {n : Node} {ns : List Node}
    (h : (Tree.node r ts).Makes source n) (hr : r ≠ .ifElseIf) (hnode : r.isNode = true)
    (hparts : List.Forall₂ (Makes source) (phrasesAll ts) ns) :
    List.Forall₂ (Makes source) (Tree.node r ts).phrases (n :: ns) := by
  rw [phrases_node hr, Rule.ownPhrases_of_isNode hnode]
  exact .cons h hparts

/-! ## Expressions -/

theorem SpellsExpr.location_eq {t : Tree} {e : Expr} (h : SpellsExpr t e) :
    e.location = placeOf t.leaves := by
  induction t using Tree.ind generalizing e with
  | leaf => cases h
  | node r ts ih =>
    cases h with
    | expr part | assignNone part | operand part | unaryAtom part =>
      simpa [Tree.leaves, Tree.leavesAll] using ih _ (List.mem_singleton_self _) part
    | _ => simp [Expr.location, Tree.leaves, Tree.leavesAll]

theorem Tree.Makes.expr {r : Rule} {ts : List Tree} {e : Expr} {es : List Expr}
    (h : r.Makes (.expr e)) (spells : SpellsExpr (.node r ts) e)
    (hparts : List.Forall₂ (fun t e => t.Makes source (.expr e)) (phrasesAll ts) es) :
    List.Forall₂ (fun t e => t.Makes source (.expr e)) (Tree.node r ts).phrases (e :: es) := by
  have hmakes : (Tree.node r ts).Makes source (.expr e) :=
    ⟨⟨r, ts, rfl, h⟩, spells.location_eq, fun _ h => nomatch h⟩
  rw [← List.forall₂_map_right_iff] at hparts ⊢
  refine hmakes.node ?_ ?_ hparts
  · rintro rfl
    cases h
  · cases h <;> rfl

theorem Expr.allParts_append (es es' : List Expr) :
    allParts (es ++ es') = allParts es ++ allParts es' := by
  induction es with
  | nil => rfl
  | cons e es ih => rw [List.cons_append, allParts, allParts, ih, List.append_assoc]

mutual

theorem SpellsExpr.parts : ∀ {t : Tree} {e : Expr}, SpellsExpr t e →
    List.Forall₂ (fun t e => t.Makes source (.expr e)) t.phrases e.parts
  | _, _, .expr part | _, _, .assignNone part | _, _, .operand part | _, _, .unaryAtom part => by
    simpa using part.parts
  | _, _, .assignTo value =>
    Tree.Makes.expr .assign (.assignTo value) (by simpa [Expr.optionParts] using value.parts)
  | _, _, .binary left right =>
    Tree.Makes.expr .binary (.binary left right)
      (by simpa using List.rel_append left.parts right.parts)
  | _, _, .not operand =>
    Tree.Makes.expr .not (.not operand) (by simpa using operand.parts)
  | _, _, .int => Tree.Makes.expr .int .int .nil
  | _, _, .float nearest => Tree.Makes.expr .float (.float nearest) .nil
  | _, _, .string quoted => Tree.Makes.expr .string (.string quoted) .nil
  | _, _, .name => Tree.Makes.expr .name .name .nil
  | _, _, .paren value =>
    Tree.Makes.expr .paren (.paren value) (by simpa using value.parts)
  | _, _, .call arguments =>
    Tree.Makes.expr .call (.call arguments) (by simpa using arguments.parts)
  | _, _, .callEmpty => Tree.Makes.expr .callEmpty .callEmpty .nil

theorem SpellsArgs.parts : ∀ {t : Tree} {es : List Expr}, SpellsArgs t es →
    List.Forall₂ (fun t e => t.Makes source (.expr e)) t.phrases (Expr.allParts es)
  | _, _, .many first rest => by
    simpa [Expr.allParts] using List.rel_append first.parts rest.parts
  | _, _, .one only | _, _, .tailFirst only => by simpa [Expr.allParts] using only.parts
  | _, _, .tailMore more last => by
    simpa [Expr.allParts, Expr.allParts_append] using List.rel_append more.parts last.parts

end

theorem SpellsExpr.phrases {t : Tree} {e : Expr} (h : SpellsExpr t e) :
    List.Forall₂ (Tree.Makes source) t.phrases e.nodes :=
  List.forall₂_map_right_iff.mpr h.parts

theorem SpellsExpr.isAssignment : ∀ {t : Tree} {e : Expr}, SpellsExpr t e →
    (t.isAssignment = true ↔ ∃ loc x value, e = .assign loc x value)
  | _, _, .expr part | _, _, .assignNone part | _, _, .operand part | _, _, .unaryAtom part => by
    simpa [Tree.isAssignment] using part.isAssignment
  | _, _, .assignTo _ => by simp [Tree.isAssignment]
  | _, _, .binary _ _ | _, _, .not _ | _, _, .int | _, _, .float _ | _, _, .string _ | _, _, .name
  | _, _, .paren _ | _, _, .call _ | _, _, .callEmpty => by simp [Tree.isAssignment]

/-! ## Statements -/

theorem Tree.exists_expr {t : Tree} (h : t.symbol = .phrase .expr) : ∃ ts, t = .node .expr ts := by
  cases t with
  | leaf token => cases h
  | node r ts =>
    have hmem := r.mem_rules
    rw [GrammarSymbol.phrase.inj h] at hmem
    exact ⟨ts, by rw [List.mem_singleton.mp hmem]⟩

theorem Performs.phrases {t : Tree} {e : Expr} {s : Stmt} (performs : Performs e s)
    (value : SpellsExpr t e) (hexpr : t.symbol = .phrase .expr) :
    List.Forall₂ (Tree.Makes source) ((if t.isAssignment then [] else [t]) ++ t.phrases)
      s.nodes := by
  have hnodes : List.Forall₂ (Tree.Makes source) t.phrases e.nodes := value.phrases
  cases performs with
  | assign =>
    rw [if_pos (value.isAssignment.mpr ⟨_, _, _, rfl⟩), List.nil_append]
    obtain ⟨u, us, hu, hus, heq⟩ := List.forall₂_cons_right_iff.mp hnodes
    obtain ⟨r, ts, htree, hr⟩ := hu.rule
    rw [heq]
    refine .cons ⟨⟨r, ts, htree, ?_⟩, hu.place, fun _ h => nomatch h⟩ hus
    cases hr
    exact .assignStmt
  | expr other =>
    have hother : ¬t.isAssignment = true := by
      rw [value.isAssignment]
      exact fun ⟨loc, x, v, he⟩ => other loc x v he
    obtain ⟨ts, htree⟩ := Tree.exists_expr hexpr
    rw [if_neg hother]
    exact .cons ⟨⟨.expr, ts, htree, .exprStmt⟩, value.location_eq, fun _ h => nomatch h⟩ hnodes

theorem SpellsType.phrases {t : Tree} {type : String} (h : SpellsType t type) : t.phrases = [] := by
  cases h
  simp

theorem SpellsVar.phrases {t : Tree} {d : VarDecl} (h : SpellsVar source t d) :
    List.Forall₂ (Tree.Makes source) t.phrases d.nodes := by
  have hinit (d' : VarDecl) (hd' : Node.var d = .var d') : [d'.initText] = t.initTexts source := by
    cases hd'
    exact h.initTexts.symm
  cases h with
  | plain typed | constant typed =>
    refine Tree.Makes.node ⟨⟨_, _, rfl, .var rfl rfl⟩, ?_, hinit⟩ (by decide) rfl ?_
    · simp [Node.location, Tree.leaves, Tree.leavesAll]
    · simp [typed.phrases]
  | plainInit typed value | constantInit typed value =>
    refine Tree.Makes.node ⟨⟨_, _, rfl, .var rfl rfl⟩, ?_, hinit⟩ (by decide) rfl ?_
    · simp [Node.location, Tree.leaves, Tree.leavesAll]
    · simpa [typed.phrases] using value.phrases

theorem SpellsInit.phrases {t : Tree} {init : Option Stmt} (h : SpellsInit source t init)
    (ht : t.WellFormed) :
    List.Forall₂ (Tree.Makes source) t.phrases (Stmt.optionNodes init) := by
  cases h with
  | var spec => simpa [Stmt.optionNodes, Stmt.nodes] using spec.phrases
  | expr value performs =>
    have hexpr : _ = [GrammarSymbol.phrase .expr] := ht.1
    simpa [Stmt.optionNodes] using performs.phrases value (List.head_eq_of_cons_eq hexpr)
  | empty => simp [Stmt.optionNodes]

theorem SpellsCond.phrases {t : Tree} {condition : Option Expr} (h : SpellsCond t condition) :
    List.Forall₂ (Tree.Makes source) t.phrases (Expr.optionNodes condition) := by
  cases h with
  | expr value => simpa using value.phrases
  | empty => simp

theorem SpellsUpdate.phrases (source : List Char) {t : Tree} {update : Option Stmt}
    (h : SpellsUpdate t update) (ht : t.WellFormed) :
    List.Forall₂ (Tree.Makes source) t.phrases (Stmt.optionNodes update) := by
  cases h with
  | expr value performs =>
    have hexpr : _ = [GrammarSymbol.phrase .expr] := ht.1
    simpa [Stmt.optionNodes] using performs.phrases value (List.head_eq_of_cons_eq hexpr)
  | empty => simp [Stmt.optionNodes]

theorem SpellsBlock.exists_rule {t : Tree} {b : Block} (h : SpellsBlock source t b) :
    ∃ r ts, t = .node r ts ∧ r.category = .block := by
  cases h with
  | full body => exact ⟨_, _, rfl, rfl⟩
  | empty => exact ⟨_, _, rfl, rfl⟩

theorem SpellsStmt.makes_block {t : Tree} {s : Stmt} (h : SpellsStmt source t s)
    (hsymbol : t.symbol = .phrase .ifStmt) :
    t.Makes source (.block (.mk (placeOf t.leaves) [s])) := by
  obtain ⟨r, ts, condition, thenBlock, elseBlock, rfl, hr, rfl⟩ :
      ∃ r ts condition thenBlock elseBlock, t = .node r ts ∧ r.category = .ifStmt ∧
        s = .ifThen (placeOf t.leaves) condition thenBlock elseBlock := by
    cases h with
    | ifThen | ifElse | ifElseIf =>
      refine ⟨_, _, _, _, _, rfl, rfl, congrArg (Stmt.ifThen · _ _ _) (congrArg placeOf ?_)⟩
      simp [Tree.leaves, Tree.leavesAll]
    | _ => cases hsymbol
  exact ⟨⟨r, ts, rfl, .elseIf hr⟩, rfl, fun _ h => nomatch h⟩

theorem Rule.ownPhrases_form {form : StmtForm} (other : form ≠ .varDecl ∧ form ≠ .block)
    (t : Tree) : (Rule.stmt form).ownPhrases [t] = [] := by
  cases form with
  | block => exact absurd rfl other.2
  | _ => rfl

theorem Tree.Makes.stmt {r : Rule} {ts : List Tree} {s : Stmt} {ns : List Node}
    (h : r.Makes (.stmt s)) (hr : r ≠ .ifElseIf) (hnode : r.isNode = true)
    (hplace : s.location = placeOf (leavesAll ts))
    (hparts : List.Forall₂ (Makes source) (phrasesAll ts) ns) :
    List.Forall₂ (Makes source) (Tree.node r ts).phrases (.stmt s :: ns) :=
  Makes.node ⟨⟨r, ts, rfl, h⟩, hplace, fun _ h => nomatch h⟩ hr hnode hparts

mutual

theorem SpellsStmt.phrases : ∀ {t : Tree} {s : Stmt}, SpellsStmt source t s → t.WellFormed →
    List.Forall₂ (Tree.Makes source) t.phrases s.nodes
  | _, _, .varDecl spec, _ => by simpa [Stmt.nodes] using spec.phrases
  | _, _, .block body, ht => by
    have hbody := body.phrases (Reading.wellFormed_of_mem ht.2 (by simp))
    obtain ⟨r, ts, htree, hr⟩ := body.exists_rule
    simpa using .cons ⟨⟨r, ts, htree, .blockStmt hr⟩, rfl, fun _ h => nomatch h⟩ hbody
  | _, _, .form other part, ht => by
    have hpart := part.phrases (Reading.wellFormed_of_mem ht.2 (by simp))
    rw [Tree.phrases_node, Rule.ownPhrases_form other]
    · simpa using hpart
    · nofun
  | _, _, .expr value performs, ht => by
    have hbody : _ :: _ = [GrammarSymbol.phrase .expr, .terminal .semicolon] := ht.1
    simpa using performs.phrases value (List.head_eq_of_cons_eq hbody)
  | _, _, .ifThen condition thenBlock, ht => by
    have hyes := thenBlock.phrases (Reading.wellFormed_of_mem ht.2 (by simp))
    refine Tree.Makes.stmt (.ifThen rfl) nofun rfl ?_ ?_
    · simp [Stmt.location, Tree.leaves, Tree.leavesAll]
    · simpa [Block.optionNodes] using List.rel_append condition.phrases hyes
  | _, _, .ifElse condition thenBlock elseBlock, ht => by
    have hyes := thenBlock.phrases (Reading.wellFormed_of_mem ht.2 (by simp))
    have hno := elseBlock.phrases (Reading.wellFormed_of_mem ht.2 (by simp))
    refine Tree.Makes.stmt (.ifThen rfl) nofun rfl ?_ ?_
    · simp [Stmt.location, Tree.leaves, Tree.leavesAll]
    · simpa [Block.optionNodes] using
        List.rel_append condition.phrases (List.rel_append hyes hno)
  | _, _, .ifElseIf condition thenBlock elseIf, ht => by
    have hyes := thenBlock.phrases (Reading.wellFormed_of_mem ht.2 (by simp))
    have hno := elseIf.phrases (Reading.wellFormed_of_mem ht.2 (by simp))
    have hblock : Tree.Makes source _ (.block (.mk (placeOf _) [_])) :=
      elseIf.makes_block (by simpa [Rule.body] using congrArg List.getLast? ht.1)
    refine .cons ⟨⟨_, _, rfl, .ifThen rfl⟩, ?_, fun _ h => nomatch h⟩ ?_
    · simp [Node.location, Stmt.location, Tree.leaves, Tree.leavesAll]
    · simpa [Block.optionNodes, Block.nodes, Stmt.allNodes] using
        List.rel_append condition.phrases (List.rel_append hyes (.cons hblock hno))
  | _, _, .whileLoop condition loop, ht => by
    have hloop := loop.phrases (Reading.wellFormed_of_mem ht.2 (by simp))
    refine Tree.Makes.stmt .whileLoop nofun rfl ?_ ?_
    · simp [Stmt.location, Tree.leaves, Tree.leavesAll]
    · simpa using List.rel_append condition.phrases hloop
  | _, _, .forLoop start test step loop, ht => by
    have hstart := start.phrases (Reading.wellFormed_of_mem ht.2 (by simp))
    have hstep := step.phrases source (Reading.wellFormed_of_mem ht.2 (by simp))
    have hloop := loop.phrases (Reading.wellFormed_of_mem ht.2 (by simp))
    refine Tree.Makes.stmt .forLoop nofun rfl ?_ ?_
    · simp [Stmt.location, Tree.leaves, Tree.leavesAll]
    · simpa using
        List.rel_append hstart (List.rel_append test.phrases (List.rel_append hstep hloop))
  | _, _, .returnValue value, _ => by
    refine Tree.Makes.stmt .returnValue nofun rfl ?_ ?_
    · simp [Stmt.location, Tree.leaves, Tree.leavesAll]
    · simpa using value.phrases
  | _, _, .returnBare, _ => Tree.Makes.stmt .returnBare nofun rfl rfl .nil

theorem SpellsBlock.phrases : ∀ {t : Tree} {b : Block}, SpellsBlock source t b → t.WellFormed →
    List.Forall₂ (Tree.Makes source) t.phrases b.nodes
  | _, _, .full body, ht => by
    have hbody := body.phrases (Reading.wellFormed_of_mem ht.2 (by simp))
    refine Tree.Makes.node ⟨⟨_, _, rfl, .block rfl⟩, ?_, fun _ h => nomatch h⟩ nofun rfl ?_
    · simp [Node.location, Block.location, Tree.leaves, Tree.leavesAll]
    · simpa using hbody
  | _, _, .empty, _ => by
    refine Tree.Makes.node ⟨⟨_, _, rfl, .block rfl⟩, ?_, fun _ h => nomatch h⟩ nofun rfl ?_
    · simp [Node.location, Block.location, Tree.leaves, Tree.leavesAll]
    · simp [Stmt.allNodes]

theorem SpellsStmts.phrases : ∀ {t : Tree} {ss : List Stmt}, SpellsStmts source t ss →
    t.WellFormed → List.Forall₂ (Tree.Makes source) t.phrases (Stmt.allNodes ss)
  | _, _, .first only, ht => by
    have honly := only.phrases (Reading.wellFormed_of_mem ht.2 (by simp))
    simpa [Stmt.allNodes] using honly
  | _, _, .more before last, ht => by
    have hbefore := before.phrases (Reading.wellFormed_of_mem ht.2 (by simp))
    have hlast := last.phrases (Reading.wellFormed_of_mem ht.2 (by simp))
    simpa [Stmt.allNodes, Stmt.allNodes_append] using List.rel_append hbefore hlast

end

/-! ## Functions and programs -/

theorem SpellsParam.phrases {t : Tree} {p : Param} (h : SpellsParam t p) :
    List.Forall₂ (Tree.Makes source) t.phrases [.param p] := by
  cases h with
  | mk typed =>
    refine Tree.Makes.node ⟨⟨_, _, rfl, .param⟩, ?_, fun _ h => nomatch h⟩ nofun rfl ?_
    · simp [Node.location, Tree.leaves, Tree.leavesAll]
    · simp [typed.phrases]

theorem SpellsParams.phrases (source : List Char) {t : Tree} {ps : List Param}
    (h : SpellsParams t ps) :
    List.Forall₂ (fun t p => t.Makes source (.param p)) t.phrases ps := by
  have hparam {t : Tree} {p : Param} (h : SpellsParam t p) :
      List.Forall₂ (fun t p => t.Makes source (.param p)) t.phrases [p] :=
    List.forall₂_map_right_iff.mp h.phrases
  induction h with
  | many first _ ih => simpa using List.rel_append (hparam first) ih
  | one only | tailFirst only => simpa using hparam only
  | tailMore _ last ih => simpa using List.rel_append ih (hparam last)

theorem Tree.phrasesAll_append (ts us : List Tree) :
    phrasesAll (ts ++ us) = phrasesAll ts ++ phrasesAll us := by
  induction ts with
  | nil => rfl
  | cons t ts ih => simp [ih]

theorem SpellsResult.phrases {form : ResultForm} {ts : List Tree} {result : Option String}
    (h : SpellsResult form ts result) : Tree.phrasesAll ts = [] := by
  cases h with
  | typed typed => simp [typed.phrases]
  | void => simp
  | absent => rfl

theorem SpellsFunction.phrases {t : Tree} {f : FunctionDef} (h : SpellsFunction source t f)
    (ht : t.WellFormed) :
    List.Forall₂ (Tree.Makes source) t.phrases
      (.function f :: (f.params.map .param ++ f.body.nodes)) := by
  cases h with
  | params type parameters block =>
    have hblock := block.phrases (Reading.wellFormed_of_mem ht.2 (by simp))
    have hparams := List.forall₂_map_right_iff.mpr (parameters.phrases source)
    refine Tree.Makes.node ⟨⟨_, _, rfl, .function⟩, ?_, fun _ h => nomatch h⟩ nofun rfl ?_
    · simp [Node.location, Tree.leaves, Tree.leavesAll, Tree.leavesAll_append]
    · simpa [Tree.phrasesAll_append, type.phrases] using List.rel_append hparams hblock
  | noParams type block =>
    have hblock := block.phrases (Reading.wellFormed_of_mem ht.2 (by simp))
    refine Tree.Makes.node ⟨⟨_, _, rfl, .function⟩, ?_, fun _ h => nomatch h⟩ nofun rfl ?_
    · simp [Node.location, Tree.leaves, Tree.leavesAll, Tree.leavesAll_append]
    · simpa [Tree.phrasesAll_append, type.phrases] using hblock

theorem SpellsDecl.phrases {t : Tree} {d : Decl} (h : SpellsDecl source t d) (ht : t.WellFormed) :
    List.Forall₂ (Tree.Makes source) t.phrases d.nodes := by
  cases h with
  | var spec => simpa [Decl.nodes] using spec.phrases
  | func function =>
    simpa [Decl.nodes] using function.phrases (Reading.wellFormed_of_mem ht.2 (by simp))

theorem SpellsDecls.phrases {t : Tree} {ds : List Decl} (h : SpellsDecls source t ds)
    (ht : t.WellFormed) :
    List.Forall₂ (Tree.Makes source) t.phrases (ds.flatMap Decl.nodes) := by
  induction h with
  | first only =>
    simpa using only.phrases (Reading.wellFormed_of_mem ht.2 (by simp))
  | more _ last ih =>
    have hbefore := ih (Reading.wellFormed_of_mem ht.2 (by simp))
    have hlast := last.phrases (Reading.wellFormed_of_mem ht.2 (by simp))
    simpa using List.rel_append hbefore hlast

/-- The nodes of a program are made from the phrases of its tree. -/
theorem SpellsProgram.phrases {t : Tree} {p : Program} (h : SpellsProgram source t p)
    (ht : t.WellFormed) : List.Forall₂ (Tree.Makes source) t.phrases p.nodes := by
  cases h with
  | decls declarations =>
    simpa [Program.nodes] using declarations.phrases (Reading.wellFormed_of_mem ht.2 (by simp))
  | empty => simp [Program.nodes]

end Sema
