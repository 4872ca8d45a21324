import Sema.Proofs.Syntax.Extents

/-!
# Names in nodes

The names that a node gives by itself, those of types among them (`Node.names`). A node that is
spelled by a tree has its names from the tokens of that tree, but for the type `void`, which is
known by its keyword (`Tree.Spells.names_subset`).
-/

namespace Sema

/-- The names that a node gives by itself, without those of its children. -/
def Node.names : Node → List String
  | .function f => f.name :: f.returnType.toList
  | .param p => p.name :: p.type.toList
  | .var d => d.name :: d.type.toList
  | .stmt (.assign _ target _) => [target]
  | .expr (.name _ ident) => [ident]
  | .expr (.assign _ target _) => [target]
  | .expr (.call _ func _) => [func]
  | _ => []

/-- Whether `N` admits all names in the node and below it. -/
def Node.NamesIn (N : String → Prop) (n : Node) : Prop :=
  ∀ m, n.Reaches m → ∀ x ∈ m.names, N x

namespace Node.NamesIn

variable {N : String → Prop} {n c : Node}

theorem here (h : n.NamesIn N) : ∀ x ∈ n.names, N x :=
  h n .refl

theorem child (h : n.NamesIn N) (hc : c ∈ n.children) : c.NamesIn N :=
  fun m hm => h m (.head hc hm)

end Node.NamesIn

/-! ## Names of spelled nodes -/

variable {source : List Char} {t : Tree}

theorem SpellsType.mem_texts {type : String} (h : SpellsType t type) :
    type ∈ t.leaves.map Token.text := by
  cases h
  exact List.mem_singleton_self _

theorem SpellsResult.names_subset {form : ResultForm} {ts : List Tree} {result : Option String}
    (h : SpellsResult form ts result) :
    result.toList ⊆ "void" :: (Tree.leavesAll ts).map Token.text := by
  cases h with
  | typed typed => simpa [Tree.leavesAll] using Or.inr (List.mem_map.mp typed.mem_texts)
  | void => simp
  | absent => simp

theorem SpellsExpr.names_subset {e : Expr} (h : SpellsExpr t e) :
    (Node.expr e).names ⊆ t.leaves.map Token.text := by
  induction t using Tree.ind generalizing e with
  | leaf => cases h
  | node r ts ih =>
    cases h with
    | expr part | assignNone part | operand part | unaryAtom part =>
      simpa [Tree.leaves, Tree.leavesAll] using ih _ (List.mem_singleton_self _) part
    | assignTo | name | call | callEmpty => simp [Node.names, Tree.leaves, Tree.leavesAll]
    | _ => exact List.nil_subset _

theorem SpellsVar.names_subset {d : VarDecl} (h : SpellsVar source t d) :
    (Node.var d).names ⊆ t.leaves.map Token.text := by
  cases h with
  | plain typed | constant typed | plainInit typed | constantInit typed =>
    have htype := typed.mem_texts
    simp only [Node.names, Tree.leaves, Tree.leavesAll, List.map_append, List.map_cons]
    grind

theorem SpellsParam.names_subset {p : Param} (h : SpellsParam t p) :
    (Node.param p).names ⊆ t.leaves.map Token.text := by
  cases h with
  | mk typed =>
    have htype := typed.mem_texts
    simp only [Node.names, Tree.leaves, Tree.leavesAll, List.map_append, List.map_cons]
    grind

theorem SpellsFunction.names_subset {f : FunctionDef} (h : SpellsFunction source t f) :
    (Node.function f).names ⊆ "void" :: t.leaves.map Token.text := by
  cases h with
  | params type | noParams type =>
    have hresult := type.names_subset
    simp only [Node.names, Tree.leaves, Tree.leavesAll, Tree.leavesAll_append, List.map_append,
      List.map_cons]
    grind

/-- A node has its names from the tokens of its tree. -/
theorem Tree.Spells.names_subset {n : Node} (h : t.Spells source n) :
    n.names ⊆ "void" :: t.leaves.map Token.text := by
  have htexts := List.subset_cons_self "void" (t.leaves.map Token.text)
  cases h with
  | function h => exact h.names_subset
  | param h => exact List.Subset.trans h.names_subset htexts
  | var h => exact List.Subset.trans h.names_subset htexts
  | exprStmt value performs =>
    cases performs with
    | assign => exact List.Subset.trans value.names_subset htexts
    | expr => exact List.nil_subset _
  | stmt h hr =>
    cases h with
    | varDecl | block | form | expr => cases hr
    | _ => exact List.nil_subset _
  | expr h => exact List.Subset.trans h.names_subset htexts
  | block | elseIf | blockStmt => exact List.nil_subset _

end Sema
