import Sema.Proofs.Syntax.Children

/-!
# Plain programs

Some programs differ only in how they are written: an expression may stand in parentheses, and an
assignment that is a statement may be one by itself or by way of an expression. The plain form of a
program (`Program.plain`) has no parentheses, and its assignments that are statements are so by
themselves (`Program.isPlain_of_mem_nodes`).
-/

namespace Sema

/-! ## Expressions -/

mutual

def Expr.plain : Expr → Expr
  | .int loc value => .int loc value
  | .float loc bits => .float loc bits
  | .string loc text => .string loc text
  | .name loc ident => .name loc ident
  | .paren _ value => value.plain
  | .not loc operand => .not loc operand.plain
  | .binary loc op left right => .binary loc op left.plain right.plain
  | .assign loc target value => .assign loc target (Expr.optionPlain value)
  | .call loc func args => .call loc func (Expr.allPlain args)
  | .unsupported => .unsupported

def Expr.optionPlain : Option Expr → Option Expr
  | none => none
  | some e => some e.plain

def Expr.allPlain : List Expr → List Expr
  | [] => []
  | e :: es => e.plain :: Expr.allPlain es

end

/-- The statement that an expression makes. An assignment is a statement by itself, at its own
place. -/
def Expr.asStmt (loc : Location) : Expr → Stmt
  | .assign here target value => .assign here target value
  | e => .expr loc e

/-! ## Statements -/

def VarDecl.plain (d : VarDecl) : VarDecl :=
  { d with value := Expr.optionPlain d.value }

mutual

def Stmt.plain : Stmt → Stmt
  | .varDecl d => .varDecl d.plain
  | .assign loc target value => .assign loc target (Expr.optionPlain value)
  | .expr loc value => value.plain.asStmt loc
  | .block loc body => .block loc body.plain
  | .ifThen loc condition thenBlock elseBlock =>
    .ifThen loc condition.plain thenBlock.plain (Block.optionPlain elseBlock)
  | .whileLoop loc condition body => .whileLoop loc condition.plain body.plain
  | .forLoop loc init condition update body =>
    .forLoop loc (Stmt.optionPlain init) (Expr.optionPlain condition) (Stmt.optionPlain update)
      body.plain
  | .result loc value => .result loc (Expr.optionPlain value)
  | .unsupported => .unsupported

def Stmt.optionPlain : Option Stmt → Option Stmt
  | none => none
  | some s => some s.plain

def Block.plain : Block → Block
  | .mk loc statements => .mk loc (Stmt.allPlain statements)

def Block.optionPlain : Option Block → Option Block
  | none => none
  | some b => some b.plain

def Stmt.allPlain : List Stmt → List Stmt
  | [] => []
  | s :: ss => s.plain :: Stmt.allPlain ss

end

/-! ## Programs -/

def FunctionDef.plain (f : FunctionDef) : FunctionDef :=
  { f with body := f.body.plain }

def Decl.plain : Decl → Decl
  | .func f => .func f.plain
  | .var d => .var d.plain
  | .unsupported => .unsupported

/-- A program in plain form. -/
def Program.plain (p : Program) : Program :=
  ⟨p.declarations.map Decl.plain⟩

theorem Expr.allPlain_eq_map (es : List Expr) : allPlain es = es.map plain := by
  induction es with
  | nil => rfl
  | cons e es ih => rw [allPlain, ih, List.map_cons]

theorem Stmt.allPlain_eq_map (ss : List Stmt) : allPlain ss = ss.map plain := by
  induction ss with
  | nil => rfl
  | cons s ss ih => rw [allPlain, ih, List.map_cons]

theorem Block.statements_plain (b : Block) : b.plain.statements = Stmt.allPlain b.statements := by
  cases b
  rfl

theorem Program.functions_plain (p : Program) : p.plain.functions = p.functions.map .plain := by
  rw [functions, plain, List.filterMap_map, functions, List.map_filterMap]
  congr 1
  funext d
  cases d <;> rfl

/-! ## Plain nodes -/

/-- Whether a node is neither in parentheses nor an assignment that is a statement by way of an
expression. -/
def Node.IsPlain : Node → Prop
  | .expr (.paren _ _) | .stmt (.expr _ (.assign _ _ _)) => False
  | _ => True

def Node.plain : Node → Node
  | .function f => .function f.plain
  | .param p => .param p
  | .var d => .var d.plain
  | .block b => .block b.plain
  | .stmt s => .stmt s.plain
  | .expr e => .expr e.plain

theorem Expr.isPlain_plain (e : Expr) : (Node.expr e.plain).IsPlain := by
  cases e with
  | paren _ value => exact value.isPlain_plain
  | _ => trivial

theorem Expr.isPlain_asStmt (e : Expr) (loc : Location) : (Node.stmt (e.asStmt loc)).IsPlain := by
  cases e <;> trivial

theorem Node.isPlain_plain (n : Node) : n.plain.IsPlain := by
  cases n with
  | expr e => exact e.isPlain_plain
  | stmt s =>
    cases s with
    | expr loc value => exact value.plain.isPlain_asStmt loc
    | _ => trivial
  | _ => trivial

def Node.IsForm (n : Node) : Prop :=
  ∃ origin : Node, n = origin.plain

namespace Node

theorem isForm_plain (n : Node) : n.plain.IsForm :=
  ⟨n, rfl⟩

theorem isForm_of_mem_expr (es : List Expr) {n : Node} (h : n ∈ (es.map Expr.plain).map .expr) :
    n.IsForm := by
  rw [List.map_map] at h
  obtain ⟨e, -, rfl⟩ := List.mem_map.mp h
  exact isForm_plain (.expr e)

theorem isForm_of_mem_optionExpr {e : Option Expr} {n : Node}
    (h : n ∈ (Expr.optionPlain e).toList.map .expr) : n.IsForm := by
  cases e with
  | none => cases h
  | some e => exact isForm_of_mem_expr [e] h

theorem isForm_node (s : Stmt) : s.plain.node.IsForm := by
  cases s with
  | varDecl d => exact isForm_plain (.var d)
  | expr loc value =>
    refine ⟨.stmt (.expr loc value), ?_⟩
    show (value.plain.asStmt loc).node = .stmt (value.plain.asStmt loc)
    cases value.plain <;> rfl
  | assign loc target value => exact isForm_plain (.stmt (.assign loc target value))
  | block loc body => exact isForm_plain (.stmt (.block loc body))
  | ifThen loc condition thenBlock elseBlock =>
    exact isForm_plain (.stmt (.ifThen loc condition thenBlock elseBlock))
  | whileLoop loc condition body => exact isForm_plain (.stmt (.whileLoop loc condition body))
  | forLoop loc init condition update body =>
    exact isForm_plain (.stmt (.forLoop loc init condition update body))
  | result loc value => exact isForm_plain (.stmt (.result loc value))
  | unsupported => exact isForm_plain (.stmt .unsupported)

theorem isForm_of_mem_stmt (ss : List Stmt) {n : Node}
    (h : n ∈ (ss.map Stmt.plain).map Stmt.node) : n.IsForm := by
  rw [List.map_map] at h
  obtain ⟨s, -, rfl⟩ := List.mem_map.mp h
  exact isForm_node s

theorem isForm_of_mem_optionStmt {s : Option Stmt} {n : Node}
    (h : n ∈ (Stmt.optionPlain s).toList.map Stmt.node) : n.IsForm := by
  cases s with
  | none => cases h
  | some s => exact isForm_of_mem_stmt [s] h

theorem isForm_of_mem_optionBlock {b : Option Block} {n : Node}
    (h : n ∈ (Block.optionPlain b).toList.map .block) : n.IsForm := by
  cases b with
  | none => cases h
  | some b =>
    obtain rfl := List.mem_singleton.mp h
    exact isForm_plain (.block b)

end Node

theorem Expr.isForm_of_mem_children_plain (e : Expr) :
    ∀ n ∈ e.plain.children, n.IsForm := by
  intro n hn
  cases e with
  | paren _ value => exact value.isForm_of_mem_children_plain n hn
  | not _ operand => exact Node.isForm_of_mem_expr [operand] hn
  | binary _ _ left right => exact Node.isForm_of_mem_expr [left, right] hn
  | assign _ _ value => exact Node.isForm_of_mem_optionExpr hn
  | call _ _ args =>
    rw [plain, children, allPlain_eq_map] at hn
    exact Node.isForm_of_mem_expr args hn
  | _ => cases hn

theorem Expr.mem_children_asStmt {e : Expr} {loc : Location} {n : Node}
    (h : n ∈ (e.asStmt loc).children) : n = .expr e ∨ n ∈ e.children := by
  cases e with
  | assign _ _ value => exact .inr h
  | _ => exact .inl (List.mem_singleton.mp h)

theorem Stmt.isForm_of_mem_children_plain (s : Stmt) : ∀ n ∈ s.plain.children, n.IsForm := by
  intro n hn
  cases s with
  | varDecl d => exact Node.isForm_of_mem_optionExpr hn
  | assign _ _ value => exact Node.isForm_of_mem_optionExpr hn
  | expr loc value =>
    rcases Expr.mem_children_asStmt hn with rfl | hn
    · exact Node.isForm_plain (.expr value)
    · exact value.isForm_of_mem_children_plain n hn
  | block _ body => exact Node.isForm_of_mem_optionBlock (b := some body) hn
  | ifThen _ condition thenBlock elseBlock =>
    rcases List.mem_cons.mp hn with rfl | hn
    · exact Node.isForm_plain (.expr condition)
    rcases List.mem_cons.mp hn with rfl | hn
    · exact Node.isForm_plain (.block thenBlock)
    · exact Node.isForm_of_mem_optionBlock hn
  | whileLoop _ condition body =>
    rcases List.mem_cons.mp hn with rfl | hn
    · exact Node.isForm_plain (.expr condition)
    · exact Node.isForm_of_mem_optionBlock (b := some body) hn
  | forLoop _ init condition update body =>
    rcases List.mem_append.mp hn with hn | hn
    · exact Node.isForm_of_mem_optionStmt hn
    rcases List.mem_append.mp hn with hn | hn
    · exact Node.isForm_of_mem_optionExpr hn
    rcases List.mem_append.mp hn with hn | hn
    · exact Node.isForm_of_mem_optionStmt hn
    · exact Node.isForm_of_mem_optionBlock (b := some body) hn
  | result _ value => exact Node.isForm_of_mem_optionExpr hn
  | unsupported => cases hn

theorem Node.isForm_of_mem_children {n c : Node} (h : n.IsForm) (hc : c ∈ n.children) :
    c.IsForm := by
  obtain ⟨origin, rfl⟩ := h
  cases origin with
  | function f =>
    rcases List.mem_append.mp hc with hc | hc
    · obtain ⟨p, -, rfl⟩ := List.mem_map.mp hc
      exact isForm_plain (.param p)
    · exact isForm_of_mem_optionBlock (b := some f.body) hc
  | param p => cases hc
  | var d => exact isForm_of_mem_optionExpr hc
  | block b =>
    rw [plain, children, Block.statements_plain, Stmt.allPlain_eq_map] at hc
    exact isForm_of_mem_stmt b.statements hc
  | stmt s => exact s.isForm_of_mem_children_plain c hc
  | expr e => exact e.isForm_of_mem_children_plain c hc

theorem Program.isForm_of_mem_tops {p : Program} {n : Node} (h : n ∈ p.plain.tops) :
    n.IsForm := by
  obtain ⟨d, hd, hn⟩ := List.mem_flatMap.mp h
  obtain ⟨origin, -, rfl⟩ := List.mem_map.mp hd
  cases origin with
  | func f =>
    obtain rfl := List.mem_singleton.mp hn
    exact Node.isForm_plain (.function f)
  | var d =>
    obtain rfl := List.mem_singleton.mp hn
    exact Node.isForm_plain (.var d)
  | unsupported => cases hn

/-- A program in plain form has no parentheses, and no assignment that is a statement by way of an
expression. -/
theorem Program.isPlain_of_mem_nodes {p : Program} {n : Node} (h : n ∈ p.plain.nodes) :
    n.IsPlain := by
  have hform : n.IsForm :=
    nodes_induction (fun _ => isForm_of_mem_tops) (fun _ hn _ => Node.isForm_of_mem_children hn) h
  obtain ⟨origin, rfl⟩ := hform
  exact origin.isPlain_plain

end Sema
