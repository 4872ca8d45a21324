import Mathlib.Logic.Relation
import Sema.Proofs.Syntax.Contents

/-!
# Nodes

The nodes of a program that have a place (`Program.nodes`), with the outer ones first and else in
the order of the source, and what they directly consist of (`Node.children`). The nodes of a program
are those that its declarations reach through children (`Program.mem_nodes_iff`). So what holds of
the declarations and goes over from nodes to their children holds of all nodes
(`Program.nodes_induction`).
-/

namespace Sema

/-! ## Nodes -/

/-- The nodes of a program that have a place. -/
inductive Node where
  | function (f : FunctionDef)
  | param (p : Param)
  | var (d : VarDecl)
  | block (b : Block)
  | stmt (s : Stmt)
  | expr (e : Expr)

def Stmt.location : Stmt → Location
  | .varDecl d => d.loc
  | .assign loc _ _ | .expr loc _ | .block loc _ | .ifThen loc _ _ _ | .whileLoop loc _ _
  | .forLoop loc _ _ _ _ | .result loc _ => loc
  | .unsupported => ⟨0, 0, none⟩

def Node.location : Node → Location
  | .function f => f.loc
  | .param p => p.loc
  | .var d => d.loc
  | .block b => b.location
  | .stmt s => s.location
  | .expr e => e.location

def Expr.nodes (e : Expr) : List Node :=
  e.parts.map .expr

def Expr.optionNodes (e : Option Expr) : List Node :=
  (optionParts e).map .expr

def Expr.allNodes (es : List Expr) : List Node :=
  (allParts es).map .expr

def VarDecl.nodes (d : VarDecl) : List Node :=
  .var d :: Expr.optionNodes d.value

mutual

def Stmt.nodes : Stmt → List Node
  | .varDecl d => d.nodes
  | .assign loc x value => .stmt (.assign loc x value) :: Expr.optionNodes value
  | .expr loc value => .stmt (.expr loc value) :: value.nodes
  | .block loc body => .stmt (.block loc body) :: body.nodes
  | .ifThen loc condition thenBlock elseBlock =>
    .stmt (.ifThen loc condition thenBlock elseBlock) ::
      (condition.nodes ++ (thenBlock.nodes ++ Block.optionNodes elseBlock))
  | .whileLoop loc condition body =>
    .stmt (.whileLoop loc condition body) :: (condition.nodes ++ body.nodes)
  | .forLoop loc init condition update body =>
    .stmt (.forLoop loc init condition update body) ::
      (Stmt.optionNodes init ++
        (Expr.optionNodes condition ++ (Stmt.optionNodes update ++ body.nodes)))
  | .result loc value => .stmt (.result loc value) :: Expr.optionNodes value
  | .unsupported => [.stmt .unsupported]

def Block.nodes : Block → List Node
  | .mk loc statements => .block (.mk loc statements) :: Stmt.allNodes statements

def Block.optionNodes : Option Block → List Node
  | none => []
  | some b => b.nodes

def Stmt.optionNodes : Option Stmt → List Node
  | none => []
  | some s => s.nodes

def Stmt.allNodes : List Stmt → List Node
  | [] => []
  | s :: ss => s.nodes ++ Stmt.allNodes ss

end

def Decl.nodes : Decl → List Node
  | .func f => .function f :: (f.params.map .param ++ f.body.nodes)
  | .var d => d.nodes
  | .unsupported => []

/-- The nodes of a program. -/
def Program.nodes (p : Program) : List Node :=
  p.declarations.flatMap Decl.nodes

@[simp] theorem Expr.optionNodes_none : optionNodes none = [] := rfl

@[simp] theorem Expr.optionNodes_some (e : Expr) : optionNodes (some e) = e.nodes := rfl

theorem Stmt.allNodes_append (ss ss' : List Stmt) :
    allNodes (ss ++ ss') = allNodes ss ++ allNodes ss' := by
  induction ss with
  | nil => rfl
  | cons s ss ih => rw [List.cons_append, allNodes, allNodes, ih, List.append_assoc]

/-! ## Children -/

/-- The node of a statement; that of a declaration is the variable. -/
def Stmt.node : Stmt → Node
  | .varDecl d => .var d
  | s => .stmt s

def Decl.node? : Decl → Option Node
  | .func f => some (.function f)
  | .var d => some (.var d)
  | .unsupported => none

def Expr.children : Expr → List Node
  | .paren _ value => [.expr value]
  | .not _ operand => [.expr operand]
  | .binary _ _ left right => [.expr left, .expr right]
  | .assign _ _ value => value.toList.map .expr
  | .call _ _ args => args.map .expr
  | .int _ _ | .float _ _ | .string _ _ | .name _ _ | .unsupported => []

def Stmt.children : Stmt → List Node
  | .varDecl d => d.value.toList.map .expr
  | .assign _ _ value => value.toList.map .expr
  | .expr _ value => [.expr value]
  | .block _ body => [.block body]
  | .ifThen _ condition thenBlock elseBlock =>
    .expr condition :: .block thenBlock :: elseBlock.toList.map .block
  | .whileLoop _ condition body => [.expr condition, .block body]
  | .forLoop _ init condition update body =>
    init.toList.map Stmt.node ++
      (condition.toList.map .expr ++ (update.toList.map Stmt.node ++ [.block body]))
  | .result _ value => value.toList.map .expr
  | .unsupported => []

/-- The nodes that a node directly consists of, in the order of the source. -/
def Node.children : Node → List Node
  | .function f => f.params.map .param ++ [.block f.body]
  | .param _ => []
  | .var d => d.value.toList.map .expr
  | .block b => b.statements.map Stmt.node
  | .stmt s => s.children
  | .expr e => e.children

/-- The nodes of the declarations of a program, in the order of the source. -/
def Program.tops (p : Program) : List Node :=
  p.declarations.flatMap (·.node?.toList)

theorem Stmt.children_node (s : Stmt) : s.node.children = s.children := by
  cases s <;> rfl

theorem FunctionDef.param_mem_children {f : FunctionDef} {p : Param} (h : p ∈ f.params) :
    .param p ∈ (Node.function f).children :=
  List.mem_append_left _ (List.mem_map_of_mem h)

theorem FunctionDef.body_mem_children (f : FunctionDef) :
    .block f.body ∈ (Node.function f).children :=
  List.mem_append_right _ (.head _)

theorem Node.mem_of_mem_option {α : Type} (node : α → Node) {part : Option α} {a : α}
    (h : a ∈ part) : node a ∈ part.toList.map node :=
  List.mem_map_of_mem (Option.mem_toList.mpr h)

section loop

variable {loc : Location} {init update : Option Stmt} {condition : Option Expr} {body : Block}

theorem Stmt.init_mem_children {s : Stmt} (h : s ∈ init) :
    s.node ∈ (Node.stmt (.forLoop loc init condition update body)).children :=
  List.mem_append_left _ (Node.mem_of_mem_option _ h)

theorem Stmt.condition_mem_children {e : Expr} (h : e ∈ condition) :
    .expr e ∈ (Node.stmt (.forLoop loc init condition update body)).children :=
  List.mem_append_right _ (List.mem_append_left _ (Node.mem_of_mem_option _ h))

theorem Stmt.update_mem_children {s : Stmt} (h : s ∈ update) :
    s.node ∈ (Node.stmt (.forLoop loc init condition update body)).children :=
  List.mem_append_right _ (List.mem_append_right _ (List.mem_append_left _
    (Node.mem_of_mem_option _ h)))

theorem Stmt.body_mem_children :
    .block body ∈ (Node.stmt (.forLoop loc init condition update body)).children :=
  List.mem_append_right _ (List.mem_append_right _ (List.mem_append_right _ (.head _)))

end loop

/-! ## Nodes from top to bottom -/

def Node.Reaches (n m : Node) : Prop :=
  Relation.ReflTransGen (fun n c => c ∈ n.children) n m

theorem Node.reaches_iff {n m : Node} :
    n.Reaches m ↔ m = n ∨ ∃ c ∈ n.children, c.Reaches m :=
  Relation.ReflTransGen.cases_head_iff.trans (or_congr_left eq_comm)

/-- The node `n` and all below it stand at places that `L` admits. -/
def Node.Everywhere (L : Location → Prop) (n : Node) : Prop :=
  ∀ m, n.Reaches m → L m.location

namespace Node.Everywhere

variable {L : Location → Prop} {n c : Node}

theorem here (h : n.Everywhere L) : L n.location :=
  h n .refl

theorem child (h : n.Everywhere L) (hc : c ∈ n.children) : c.Everywhere L :=
  fun m hm => h m (.head hc hm)

theorem params {f : FunctionDef} (h : (Node.function f).Everywhere L) : ∀ p ∈ f.params, L p.loc :=
  fun _ hp => (h.child (f.param_mem_children hp)).here

theorem body {f : FunctionDef} (h : (Node.function f).Everywhere L) :
    (Node.block f.body).Everywhere L :=
  h.child f.body_mem_children

@[simp] theorem of_true : n.Everywhere fun _ => True :=
  fun _ _ => trivial

end Node.Everywhere

/-- The node `m` is one of `ns` or stands somewhere below one. -/
def Node.Under (ns : List Node) (m : Node) : Prop :=
  ∃ n ∈ ns, n.Reaches m

namespace Node

variable {m n : Node} {ns ns' : List Node}

theorem reaches_iff_under : n.Reaches m ↔ m = n ∨ Under n.children m :=
  reaches_iff

@[simp] theorem not_under_nil : ¬Under [] m := by
  simp [Under]

@[simp] theorem under_cons : Under (n :: ns) m ↔ n.Reaches m ∨ Under ns m := by
  simp [Under]

@[simp] theorem under_append : Under (ns ++ ns') m ↔ Under ns m ∨ Under ns' m := by
  simp [Under, or_and_right, exists_or]

end Node

variable {m : Node}

theorem Expr.mem_nodes_cons {e : Expr} {es : List Expr} (h : e.parts = e :: es) :
    m ∈ e.nodes ↔ m = .expr e ∨ m ∈ es.map .expr := by
  rw [Expr.nodes, h, List.map_cons, List.mem_cons]

mutual

theorem Expr.mem_nodes_iff : ∀ {e : Expr}, m ∈ e.nodes ↔ (Node.expr e).Reaches m
  | .int _ _ | .float _ _ | .string _ _ | .name _ _ | .unsupported => by
    rw [mem_nodes_cons rfl, Node.reaches_iff_under]
    simp [Node.children, children]
  | .paren _ value | .not _ value => by
    rw [mem_nodes_cons rfl, Node.reaches_iff_under]
    simp only [Node.children, children, Node.under_cons, Node.not_under_nil, or_false,
      ← mem_nodes_iff]
    rfl
  | .binary _ _ left right => by
    rw [mem_nodes_cons rfl, Node.reaches_iff_under, List.map_append, List.mem_append]
    simp only [Node.children, children, Node.under_cons, Node.not_under_nil, or_false,
      ← mem_nodes_iff]
    rfl
  | .assign _ _ value => by
    rw [mem_nodes_cons rfl, Node.reaches_iff_under]
    exact or_congr_right mem_optionNodes_iff
  | .call _ _ args => by
    rw [mem_nodes_cons rfl, Node.reaches_iff_under]
    exact or_congr_right mem_allNodes_iff

theorem Expr.mem_optionNodes_iff : ∀ {e : Option Expr},
    m ∈ Expr.optionNodes e ↔ Node.Under (e.toList.map .expr) m
  | none => by simp
  | some e => by simp [mem_nodes_iff]

theorem Expr.mem_allNodes_iff : ∀ {es : List Expr},
    m ∈ Expr.allNodes es ↔ Node.Under (es.map .expr) m
  | [] => by simp [Expr.allNodes, Expr.allParts]
  | e :: es => by
    rw [allNodes, allParts, List.map_append, List.mem_append, List.map_cons, Node.under_cons,
      ← mem_nodes_iff, ← mem_allNodes_iff]
    rfl

end

theorem VarDecl.mem_nodes_iff {d : VarDecl} : m ∈ d.nodes ↔ (Node.var d).Reaches m := by
  rw [VarDecl.nodes, List.mem_cons, Node.reaches_iff_under, Expr.mem_optionNodes_iff]
  rfl

theorem Stmt.reaches_node_iff {s : Stmt} :
    s.node.Reaches m ↔ m = s.node ∨ Node.Under s.children m := by
  rw [Node.reaches_iff_under, children_node]

mutual

theorem Stmt.mem_nodes_iff : ∀ {s : Stmt}, m ∈ s.nodes ↔ s.node.Reaches m
  | .varDecl d => VarDecl.mem_nodes_iff
  | .assign _ _ value | .result _ value => by
    rw [Stmt.nodes, List.mem_cons, Stmt.reaches_node_iff, Expr.mem_optionNodes_iff]
    rfl
  | .expr _ value => by
    rw [Stmt.nodes, List.mem_cons, Stmt.reaches_node_iff, Expr.mem_nodes_iff]
    simp [Stmt.node, Stmt.children]
  | .block _ body => by
    rw [Stmt.nodes, List.mem_cons, Stmt.reaches_node_iff, Block.mem_nodes_iff]
    simp [Stmt.node, Stmt.children]
  | .ifThen _ condition thenBlock elseBlock => by
    rw [Stmt.nodes, List.mem_cons, Stmt.reaches_node_iff, List.mem_append, List.mem_append,
      Expr.mem_nodes_iff, Block.mem_nodes_iff, Block.mem_optionNodes_iff]
    simp [Stmt.node, Stmt.children]
  | .whileLoop _ condition body => by
    rw [Stmt.nodes, List.mem_cons, Stmt.reaches_node_iff, List.mem_append, Expr.mem_nodes_iff,
      Block.mem_nodes_iff]
    simp [Stmt.node, Stmt.children]
  | .forLoop _ init condition update body => by
    rw [Stmt.nodes, List.mem_cons, Stmt.reaches_node_iff, List.mem_append, List.mem_append,
      List.mem_append, Stmt.mem_optionNodes_iff, Stmt.mem_optionNodes_iff,
      Expr.mem_optionNodes_iff, Block.mem_nodes_iff]
    simp [Stmt.node, Stmt.children]
  | .unsupported => by
    rw [Stmt.nodes, Stmt.reaches_node_iff]
    simp [Stmt.node, Stmt.children]

theorem Block.mem_nodes_iff : ∀ {b : Block}, m ∈ b.nodes ↔ (Node.block b).Reaches m
  | .mk _ statements => by
    rw [Block.nodes, List.mem_cons, Node.reaches_iff_under, Stmt.mem_allNodes_iff]
    rfl

theorem Block.mem_optionNodes_iff : ∀ {b : Option Block},
    m ∈ Block.optionNodes b ↔ Node.Under (b.toList.map .block) m
  | none => by simp [Block.optionNodes]
  | some b => by simp [Block.optionNodes, Block.mem_nodes_iff]

theorem Stmt.mem_optionNodes_iff : ∀ {s : Option Stmt},
    m ∈ Stmt.optionNodes s ↔ Node.Under (s.toList.map Stmt.node) m
  | none => by simp [Stmt.optionNodes]
  | some s => by simp [Stmt.optionNodes, Stmt.mem_nodes_iff]

theorem Stmt.mem_allNodes_iff : ∀ {ss : List Stmt},
    m ∈ Stmt.allNodes ss ↔ Node.Under (ss.map Stmt.node) m
  | [] => by simp [Stmt.allNodes]
  | s :: ss => by
    rw [Stmt.allNodes, List.mem_append, Stmt.mem_nodes_iff, Stmt.mem_allNodes_iff, List.map_cons,
      Node.under_cons]

end

theorem Node.under_params_iff {ps : List Param} :
    Under (ps.map .param) m ↔ m ∈ ps.map .param := by
  induction ps with
  | nil => simp
  | cons p ps ih =>
    rw [List.map_cons, under_cons, List.mem_cons, ih, reaches_iff_under]
    simp [children]

theorem Decl.mem_nodes_iff {d : Decl} : m ∈ d.nodes ↔ Node.Under d.node?.toList m := by
  cases d with
  | func f =>
    have hchildren : (Node.function f).children = f.params.map .param ++ [.block f.body] := rfl
    rw [nodes, List.mem_cons, List.mem_append, ← Node.under_params_iff, Block.mem_nodes_iff]
    simp [node?, Node.reaches_iff_under (n := .function f), hchildren]
  | var d => simp [nodes, node?, VarDecl.mem_nodes_iff]
  | unsupported => simp [nodes, node?]

namespace Program

variable {p : Program} {c : Node}

/-- The nodes of a program are those of its declarations and what stands below them. -/
theorem mem_nodes_iff : m ∈ p.nodes ↔ Node.Under p.tops m := by
  simp [nodes, tops, Decl.mem_nodes_iff, Node.Under]
  grind

theorem mem_nodes_iff_child : c ∈ p.nodes ↔ c ∈ p.tops ∨ ∃ n ∈ p.nodes, c ∈ n.children := by
  constructor
  · intro h
    obtain ⟨top, htop, hreaches⟩ := mem_nodes_iff.mp h
    rcases Relation.ReflTransGen.cases_tail hreaches with rfl | ⟨n, hn, hc⟩
    · exact .inl htop
    · exact .inr ⟨n, mem_nodes_iff.mpr ⟨top, htop, hn⟩, hc⟩
  · rintro (h | ⟨n, hn, hc⟩)
    · exact mem_nodes_iff.mpr ⟨c, h, .refl⟩
    · obtain ⟨top, htop, hreaches⟩ := mem_nodes_iff.mp hn
      exact mem_nodes_iff.mpr ⟨top, htop, hreaches.tail hc⟩

/-- What holds of the declarations and goes over from nodes to their children holds of all nodes. -/
theorem nodes_induction {P : Node → Prop} (tops : ∀ n ∈ p.tops, P n)
    (children : ∀ n, P n → ∀ c ∈ n.children, P c) (h : m ∈ p.nodes) : P m := by
  obtain ⟨top, htop, hreaches⟩ := mem_nodes_iff.mp h
  clear h
  induction hreaches with
  | refl => exact tops top htop
  | tail _ hc ih => exact children _ ih _ hc

end Program

end Sema
