import Sema.Proofs.Syntax.Nodes

/-!
# Extents of nodes

A tree spells a node if the node is read off this tree as a whole (`Tree.Spells`). The node then has
the place of the tokens of the tree, of which there is at least one, and its children are spelled by
parts of the tree that follow each other (`Tree.Spells.children`). So are the declarations of a
program (`SpellsProgram.tops`).
-/

namespace Sema

/-- The tree `t` spells the node `n`, without tokens before or behind it. -/
inductive Tree.Spells (source : List Char) : Tree → Node → Prop
  | function {t : Tree} {f : FunctionDef} (h : SpellsFunction source t f) :
      Spells source t (.function f)
  | param {t : Tree} {p : Param} (h : SpellsParam t p) : Spells source t (.param p)
  | var {t : Tree} {d : VarDecl} (h : SpellsVar source t d) : Spells source t (.var d)
  | block {t : Tree} {b : Block} (h : SpellsBlock source t b) : Spells source t (.block b)
  /-- The `if` behind an `else` stands in a block of its own, of the same extent. -/
  | elseIf {t : Tree} {s : Stmt} (h : SpellsStmt source t s) :
      Spells source t (.block (.mk (placeOf t.leaves) [s]))
  | blockStmt {t : Tree} {b : Block} (h : SpellsBlock source t b) :
      Spells source t (.stmt (.block (placeOf t.leaves) b))
  | exprStmt {t : Tree} {e : Expr} {s : Stmt} (value : SpellsExpr t e) (performs : Performs e s) :
      Spells source t (.stmt s)
  | stmt {r : Rule} {ts : List Tree} {s : Stmt} (h : SpellsStmt source (.node r ts) s)
      (hr : r.isNode = true) : Spells source (.node r ts) (.stmt s)
  | expr {t : Tree} {e : Expr} (h : SpellsExpr t e) : Spells source t (.expr e)

variable {source : List Char}

/-! ## Places -/

theorem SpellsExpr.leaves_ne_nil {t : Tree} {e : Expr} (h : SpellsExpr t e) : t.leaves ≠ [] := by
  induction t using Tree.ind generalizing e with
  | leaf => cases h
  | node r ts ih =>
    cases h with
    | expr part | assignNone part | operand part | unaryAtom part =>
      simpa [Tree.leaves, Tree.leavesAll] using ih _ (List.mem_singleton_self _) part
    | _ => simp [Tree.leaves, Tree.leavesAll]

theorem SpellsBlock.leaves_ne_nil {t : Tree} {b : Block} (h : SpellsBlock source t b) :
    t.leaves ≠ [] := by
  cases h <;> simp [Tree.leaves, Tree.leavesAll]

theorem SpellsStmt.leaves_ne_nil : ∀ {t : Tree} {s : Stmt}, SpellsStmt source t s → t.leaves ≠ []
  | _, _, .form _ part => by simpa [Tree.leaves, Tree.leavesAll] using part.leaves_ne_nil
  | _, _, .block body => by simpa [Tree.leaves, Tree.leavesAll] using body.leaves_ne_nil
  | _, _, .varDecl _ | _, _, .expr _ _ | _, _, .ifThen _ _ | _, _, .ifElse _ _ _
  | _, _, .ifElseIf _ _ _ | _, _, .whileLoop _ _ | _, _, .forLoop _ _ _ _ | _, _, .returnValue _
  | _, _, .returnBare => by simp [Tree.leaves, Tree.leavesAll]

namespace Tree.Spells

variable {t : Tree} {n : Node}

theorem leaves_ne_nil (h : t.Spells source n) : t.leaves ≠ [] := by
  cases h with
  | expr h | exprStmt h => exact h.leaves_ne_nil
  | block h | blockStmt h => exact h.leaves_ne_nil
  | elseIf h | stmt h => exact h.leaves_ne_nil
  | function h | param h | var h => cases h <;> simp [leaves, leavesAll, leavesAll_append]

theorem location_eq (h : t.Spells source n) : n.location = placeOf t.leaves := by
  cases h with
  | expr h => exact h.location_eq
  | exprStmt h performs =>
    cases performs with
    | assign => exact h.location_eq
    | expr => exact h.location_eq
  | function h | param h | var h | block h =>
    cases h <;> simp [Node.location, Block.location, leaves, leavesAll, leavesAll_append]
  | elseIf | blockStmt => rfl
  | stmt h hr =>
    cases h with
    | varDecl | block | form | expr => cases hr
    | _ => simp [Node.location, Stmt.location, leaves, leavesAll]

end Tree.Spells

/-! ## Children -/

/-- Trees that follow each other in the tokens `w` spell the nodes `ns`. -/
def SpelledIn (source : List Char) (w : List Token) (ns : List Node) : Prop :=
  ∃ ts : List Tree, List.Forall₂ (Tree.Spells source) ts ns ∧ (Tree.leavesAll ts).Sublist w

theorem Tree.Spells.spelledIn {t : Tree} {n : Node} (h : t.Spells source n) :
    SpelledIn source t.leaves [n] :=
  ⟨[t], .cons h .nil, by simp [Tree.leavesAll]⟩

namespace SpelledIn

variable {t : Tree} {ts : List Tree} {ns ns' : List Node}

theorem nil {w : List Token} : SpelledIn source w [] :=
  ⟨[], .nil, List.nil_sublist w⟩

theorem skip (h : SpelledIn source (Tree.leavesAll ts) ns) :
    SpelledIn source (Tree.leavesAll (t :: ts)) ns := by
  obtain ⟨us, hus, hsub⟩ := h
  exact ⟨us, hus, hsub.trans (List.sublist_append_right _ _)⟩

theorem first (h : SpelledIn source t.leaves ns) :
    SpelledIn source (Tree.leavesAll (t :: ts)) ns := by
  obtain ⟨us, hus, hsub⟩ := h
  exact ⟨us, hus, hsub.trans (List.sublist_append_left _ _)⟩

theorem cons (h : SpelledIn source t.leaves ns) (h' : SpelledIn source (Tree.leavesAll ts) ns') :
    SpelledIn source (Tree.leavesAll (t :: ts)) (ns ++ ns') := by
  obtain ⟨us, hus, hsub⟩ := h
  obtain ⟨vs, hvs, hsub'⟩ := h'
  exact ⟨us ++ vs, List.rel_append hus hvs, Tree.leavesAll_append us vs ▸ hsub.append hsub'⟩

theorem behind (h : SpelledIn source (Tree.leavesAll ts) ns) :
    ∀ us : List Tree, SpelledIn source (Tree.leavesAll (us ++ ts)) ns := by
  intro us
  induction us with
  | nil => exact h
  | cons _ us ih => exact ih.skip

end SpelledIn

theorem SpellsExpr.spelledIn {t : Tree} {e : Expr} (h : SpellsExpr t e) :
    SpelledIn source t.leaves [.expr e] :=
  (Tree.Spells.expr h).spelledIn

theorem SpellsArgs.spelledIn {t : Tree} {es : List Expr} (h : SpellsArgs t es) :
    SpelledIn source t.leaves (es.map .expr) := by
  induction t using Tree.ind generalizing es with
  | leaf => cases h
  | node r ts ih =>
    cases h with
    | many first rest => exact .cons first.spelledIn (.first (ih _ (by simp) rest))
    | one only => exact .first only.spelledIn
    | tailFirst only => exact .skip (.first only.spelledIn)
    | tailMore more last =>
      rw [List.map_append]
      exact .cons (ih _ (by simp) more) (.skip (.first last.spelledIn))

theorem SpellsExpr.children : ∀ {t : Tree} {e : Expr}, SpellsExpr t e →
    SpelledIn source t.leaves e.children
  | _, _, .expr part | _, _, .assignNone part | _, _, .operand part | _, _, .unaryAtom part =>
    .first part.children
  | _, _, .int | _, _, .float _ | _, _, .string _ | _, _, .name | _, _, .callEmpty => .nil
  | _, _, .assignTo value => .skip (.skip (.first value.spelledIn))
  | _, _, .binary left right =>
    .cons left.spelledIn (.skip (.first right.spelledIn))
  | _, _, .not value => .skip (.first value.spelledIn)
  | _, _, .paren value => .skip (.first value.spelledIn)
  | _, _, .call arguments => .skip (.skip (.first arguments.spelledIn))

theorem Performs.spelledIn {t : Tree} {e : Expr} {s : Stmt} (performs : Performs e s)
    (value : SpellsExpr t e) : SpelledIn source t.leaves [s.node] := by
  have hnode : s.node = .stmt s := by cases performs <;> rfl
  rw [hnode]
  exact (Tree.Spells.exprStmt value performs).spelledIn

theorem SpellsVar.children {t : Tree} {d : VarDecl} (h : SpellsVar source t d) :
    SpelledIn source t.leaves (Node.var d).children := by
  cases h with
  | plain | constant => exact .nil
  | plainInit _ value =>
    exact .skip (.skip (.skip (.first value.spelledIn)))
  | constantInit _ value =>
    exact .skip (.skip (.skip (.skip (.first value.spelledIn))))

theorem SpellsInit.spelledIn {t : Tree} {init : Option Stmt} (h : SpellsInit source t init) :
    SpelledIn source t.leaves (init.toList.map Stmt.node) := by
  cases h with
  | var spec => exact .first (Tree.Spells.var spec).spelledIn
  | expr value performs => exact .first (performs.spelledIn value)
  | empty => exact .nil

theorem SpellsCond.spelledIn {t : Tree} {condition : Option Expr} (h : SpellsCond t condition) :
    SpelledIn source t.leaves (condition.toList.map .expr) := by
  cases h with
  | expr value => exact .first value.spelledIn
  | empty => exact .nil

theorem SpellsUpdate.spelledIn {t : Tree} {update : Option Stmt} (h : SpellsUpdate t update) :
    SpelledIn source t.leaves (update.toList.map Stmt.node) := by
  cases h with
  | expr value performs => exact .first (performs.spelledIn value)
  | empty => exact .nil

theorem SpellsBlock.spelledIn {t : Tree} {b : Block} (h : SpellsBlock source t b) :
    SpelledIn source t.leaves [.block b] :=
  (Tree.Spells.block h).spelledIn

theorem SpellsStmt.spelledIn {t : Tree} {s : Stmt} (h : SpellsStmt source t s) :
    SpelledIn source t.leaves [s.node] := by
  induction t using Tree.ind generalizing s with
  | leaf => cases h
  | node r ts ih =>
    cases h with
    | varDecl spec => exact .first (.first (Tree.Spells.var spec).spelledIn)
    | block body => exact .first (Tree.Spells.blockStmt body).spelledIn
    | form _ part => exact .first (ih _ (by simp) part)
    | expr value performs => exact .first (performs.spelledIn value)
    | ifThen condition thenBlock =>
      exact (Tree.Spells.stmt (.ifThen condition thenBlock) rfl).spelledIn
    | ifElse condition thenBlock elseBlock =>
      exact (Tree.Spells.stmt (.ifElse condition thenBlock elseBlock) rfl).spelledIn
    | ifElseIf condition thenBlock elseIf =>
      exact (Tree.Spells.stmt (.ifElseIf condition thenBlock elseIf) rfl).spelledIn
    | whileLoop condition loop =>
      exact (Tree.Spells.stmt (.whileLoop condition loop) rfl).spelledIn
    | forLoop start test step loop =>
      exact (Tree.Spells.stmt (.forLoop start test step loop) rfl).spelledIn
    | returnValue value => exact (Tree.Spells.stmt (.returnValue value) rfl).spelledIn
    | returnBare => exact (Tree.Spells.stmt .returnBare rfl).spelledIn

theorem SpellsStmts.spelledIn {t : Tree} {ss : List Stmt} (h : SpellsStmts source t ss) :
    SpelledIn source t.leaves (ss.map Stmt.node) := by
  induction t using Tree.ind generalizing ss with
  | leaf => cases h
  | node r ts ih =>
    cases h with
    | first only => exact .first only.spelledIn
    | more before last =>
      rw [List.map_append]
      exact .cons (ih _ (by simp) before) (.first last.spelledIn)

theorem SpellsBlock.children {t : Tree} {b : Block} (h : SpellsBlock source t b) :
    SpelledIn source t.leaves (Node.block b).children := by
  cases h with
  | full body => exact .skip (.first body.spelledIn)
  | empty => exact .nil

theorem SpellsStmt.children {r : Rule} {ts : List Tree} {s : Stmt}
    (h : SpellsStmt source (.node r ts) s) (hr : r.isNode = true) :
    SpelledIn source (Tree.node r ts).leaves s.children := by
  cases h with
  | varDecl | block | form | expr => cases hr
  | ifThen condition thenBlock =>
    exact .skip (.skip (.cons condition.spelledIn (.skip (.first thenBlock.spelledIn))))
  | ifElse condition thenBlock elseBlock =>
    exact .skip (.skip (.cons condition.spelledIn (.skip (.cons thenBlock.spelledIn
      (.skip (.first elseBlock.spelledIn))))))
  | ifElseIf condition thenBlock elseIf =>
    exact .skip (.skip (.cons condition.spelledIn (.skip (.cons thenBlock.spelledIn
      (.skip (.first (Tree.Spells.elseIf elseIf).spelledIn))))))
  | whileLoop condition loop =>
    exact .skip (.skip (.cons condition.spelledIn (.skip (.first loop.spelledIn))))
  | forLoop start test step loop =>
    exact .skip (.skip (.cons start.spelledIn (.skip (.cons test.spelledIn (.skip
      (.cons step.spelledIn (.skip (.first loop.spelledIn))))))))
  | returnValue value => exact .skip (.first value.spelledIn)
  | returnBare => exact .nil

theorem SpellsParams.spelledIn {t : Tree} {ps : List Param} (h : SpellsParams t ps) :
    SpelledIn source t.leaves (ps.map .param) := by
  induction h with
  | many first _ ih => exact .cons (Tree.Spells.param first).spelledIn (.first ih)
  | one only => exact .first (Tree.Spells.param only).spelledIn
  | tailFirst only => exact .skip (.first (Tree.Spells.param only).spelledIn)
  | tailMore _ last ih =>
    rw [List.map_append]
    exact .cons ih (.skip (.first (Tree.Spells.param last).spelledIn))

theorem SpellsFunction.children {t : Tree} {f : FunctionDef} (h : SpellsFunction source t f) :
    SpelledIn source t.leaves (Node.function f).children := by
  cases h with
  | params _ parameters block =>
    exact .behind (.skip (.skip (.cons parameters.spelledIn (.skip (.first block.spelledIn))))) _
  | noParams _ block => exact .behind (.skip (.skip (.skip (.first block.spelledIn)))) _

/-- The children of a node are spelled by parts of its tree, one behind the other. -/
theorem Tree.Spells.children {t : Tree} {n : Node} (h : t.Spells source n) :
    SpelledIn source t.leaves n.children := by
  cases h with
  | function h => exact h.children
  | param => exact .nil
  | var h => exact h.children
  | block h => exact h.children
  | elseIf h => exact h.spelledIn
  | blockStmt h => exact h.spelledIn
  | exprStmt value performs =>
    cases performs with
    | assign => exact value.children
    | expr => exact value.spelledIn
  | stmt h hr => exact h.children hr
  | expr h => exact h.children

/-! ## Declarations -/

theorem SpellsDecl.spelledIn {t : Tree} {d : Decl} (h : SpellsDecl source t d) :
    SpelledIn source t.leaves d.node?.toList := by
  cases h with
  | var spec => exact .first (.first (Tree.Spells.var spec).spelledIn)
  | func function => exact .first (Tree.Spells.function function).spelledIn

theorem SpellsDecls.spelledIn {t : Tree} {ds : List Decl} (h : SpellsDecls source t ds) :
    SpelledIn source t.leaves (ds.flatMap (·.node?.toList)) := by
  induction h with
  | first only =>
    rw [List.flatMap_singleton]
    exact .first only.spelledIn
  | more _ last ih =>
    rw [List.flatMap_append, List.flatMap_singleton]
    exact .cons ih (.first last.spelledIn)

/-- The declarations of a program are spelled one behind the other. -/
theorem SpellsProgram.tops {t : Tree} {p : Program} (h : SpellsProgram source t p) :
    SpelledIn source t.leaves p.tops := by
  cases h with
  | decls declarations => exact .first declarations.spelledIn
  | empty => exact .nil

end Sema
