import Sema.Checking.Symbol
import Sema.Proofs.Data.Firsts
import Sema.Syntax.Program

/-!
# What programs contain

The contents of a program, read off its syntax alone: the parts of an expression (`Expr.parts`), and
for the body of a function its control structures, its expressions and the variables that it
declares, in the order in which they are written (`FunctionDef.items`).

A variable belongs to a frame. The parameters of a function and the statements of its body share
one, each block has its own, and the head of a `for` loop has one around that of its block. Frames
are told apart by the positions that lead to them (`FramePath`). A variable is new if none of its
name comes before it in its frame (`FunctionDef.newVariables`, `Program.newVariables`).
-/

namespace Sema

/-! ## Expressions -/

mutual

/-- An expression with all expressions in it, the outer ones first. -/
def Expr.parts : Expr → List Expr
  | .paren loc value => .paren loc value :: value.parts
  | .not loc operand => .not loc operand :: operand.parts
  | .binary loc op left right => .binary loc op left right :: (left.parts ++ right.parts)
  | .assign loc target value => .assign loc target value :: Expr.optionParts value
  | .call loc func args => .call loc func args :: Expr.allParts args
  | e => [e]

def Expr.optionParts : Option Expr → List Expr
  | none => []
  | some e => e.parts

def Expr.allParts : List Expr → List Expr
  | [] => []
  | e :: es => e.parts ++ Expr.allParts es

end

/-- Whether an expression is a call of the function of the given name. -/
def Expr.calls (name : String) : Expr → Bool
  | .call _ func _ => func == name
  | _ => false

/-- Whether one of the expressions is a call of the function of the given name. -/
def Expr.SomeCalls (name : String) (es : List Expr) : Prop :=
  es.any (·.calls name) = true

theorem Expr.someCalls_nil {name : String} : ¬SomeCalls name [] :=
  Bool.false_ne_true

theorem Expr.someCalls_append {name : String} {es es' : List Expr} :
    SomeCalls name (es ++ es') ↔ SomeCalls name es ∨ SomeCalls name es' := by
  rw [SomeCalls, List.any_append, Bool.or_eq_true, SomeCalls, SomeCalls]

theorem Expr.someCalls_cons {name : String} {e : Expr} {es : List Expr} :
    SomeCalls name (e :: es) ↔ e.calls name = true ∨ SomeCalls name es := by
  rw [SomeCalls, List.any_cons, Bool.or_eq_true, SomeCalls]

/-! ## Bodies -/

/-- A frame in the body of a function, by the positions that lead to it, the last one first. -/
abbrev FramePath := List Nat

/-- What stands in the body of a function. -/
inductive Item where
  | control (record : ControlRecord)
  | expr (e : Expr)
  | declared (frame : FramePath) (decl : VarDecl)
  | result

namespace Item

def control? : Item → Option ControlRecord
  | control record => some record
  | _ => none

def declared? : Item → Option (FramePath × VarDecl)
  | declared frame decl => some (frame, decl)
  | _ => none

def isResult : Item → Bool
  | result => true
  | _ => false

def expressions : Item → List Expr
  | expr e => e.parts
  | _ => []

def ofExpr? : Option Expr → List Item
  | none => []
  | some e => [.expr e]

def ofControl (kind : ControlKind) (loc : Location) : Item :=
  .control ⟨kind, loc.line, loc.lastLine⟩

end Item

mutual

/-- The contents of the statement at the position `n` of the frame `φ`. -/
def Stmt.items (φ : FramePath) (n : Nat) : Stmt → List Item
  | .varDecl decl => Item.ofExpr? decl.value ++ [.declared φ decl]
  | .assign _ _ value => Item.ofExpr? value
  | .expr _ value => [.expr value]
  | .block _ body => body.items (n :: φ)
  | .ifThen loc condition thenBlock elseBlock =>
    .ofControl .ifThen loc :: .expr condition ::
      (thenBlock.items (0 :: n :: φ) ++ Block.optionItems (1 :: n :: φ) elseBlock)
  | .whileLoop loc condition body =>
    .ofControl .whileLoop loc :: .expr condition :: body.items (n :: φ)
  | .forLoop loc init condition update body =>
    .ofControl .forLoop loc ::
      (Stmt.optionItems (n :: φ) 0 init ++ (Item.ofExpr? condition ++
        (Stmt.optionItems (n :: φ) 1 update ++ body.items (2 :: n :: φ))))
  | .result _ value => .result :: Item.ofExpr? value
  | .unsupported => []

def Stmt.optionItems (φ : FramePath) (n : Nat) : Option Stmt → List Item
  | none => []
  | some s => s.items φ n

def Block.items (φ : FramePath) : Block → List Item
  | .mk _ statements => Stmt.allItems φ 0 statements

def Block.optionItems (φ : FramePath) : Option Block → List Item
  | none => []
  | some b => b.items φ

def Stmt.allItems (φ : FramePath) (n : Nat) : List Stmt → List Item
  | [] => []
  | s :: ss => s.items φ n ++ Stmt.allItems φ (n + 1) ss

end

/-! ## Functions and programs -/

namespace FunctionDef

/-- The contents of the body of a function. -/
def items (f : FunctionDef) : List Item :=
  Stmt.allItems [] 0 f.body.statements

def controls (f : FunctionDef) : List ControlRecord :=
  f.items.filterMap Item.control?

def hasReturn (f : FunctionDef) : Bool :=
  f.items.any Item.isResult

def expressions (f : FunctionDef) : List Expr :=
  f.items.flatMap Item.expressions

def isRecursive (f : FunctionDef) : Bool :=
  f.expressions.any (·.calls f.name)

def variableKey (placed : FramePath × VarDecl) : FramePath × String :=
  (placed.1, placed.2.name)

/-- The names of the parameters with their frame, which is that of the whole body. -/
def paramKeys (f : FunctionDef) : List (FramePath × String) :=
  f.params.map fun p => ([], p.name)

/-- The variables of the body that are new: no parameter and no variable of the same name comes
before them in the same frame. -/
def newVariables (f : FunctionDef) : List VarDecl :=
  (firsts variableKey f.paramKeys (f.items.filterMap Item.declared?)).map Prod.snd

end FunctionDef

/-- The variable that a declaration at the top level declares. -/
def Decl.variable? : Decl → Option VarDecl
  | .var d => some d
  | _ => none

/-- The global variables that are new: none of the same name comes before them. -/
def Program.newVariables (p : Program) : List VarDecl :=
  firsts (·.name) [] (p.declarations.filterMap Decl.variable?)

/-! ## Frames of variables -/

theorem Item.not_declared_mem_ofExpr? {ψ : FramePath} {d : VarDecl} (e : Option Expr) :
    Item.declared ψ d ∉ Item.ofExpr? e := by
  cases e <;> simp [Item.ofExpr?]

theorem suffix_of_frame {φ ψ : FramePath} {n : Nat} {p : Prop}
    (h : (ψ = φ ∧ p) ∨ (n :: φ) <:+ ψ) : φ <:+ ψ := by
  rcases h with ⟨rfl, -⟩ | h
  · exact List.suffix_rfl
  · exact .trans (List.suffix_cons n φ) h

mutual

/-- A statement that declares a variable stands in its frame; all others are in frames under the
position of the statement. -/
theorem Stmt.frame_of_mem_items {φ ψ : FramePath} {n : Nat} {d : VarDecl} :
    ∀ s : Stmt, .declared ψ d ∈ s.items φ n → (ψ = φ ∧ s = .varDecl d) ∨ (n :: φ) <:+ ψ
  | .varDecl decl, h => by
    rw [Stmt.items, List.mem_append, List.mem_singleton] at h
    rcases h with h | h
    · exact absurd h (Item.not_declared_mem_ofExpr? _)
    · cases h
      exact .inl ⟨rfl, rfl⟩
  | .assign _ _ value, h => absurd h (Item.not_declared_mem_ofExpr? value)
  | .expr _ value, h => by simp [Stmt.items] at h
  | .block _ body, h => .inr (Block.frame_of_mem_items body h)
  | .ifThen loc condition thenBlock elseBlock, h => by
    simp only [Stmt.items, Item.ofControl, List.mem_cons, List.mem_append, reduceCtorEq,
      false_or] at h
    rcases h with h | h
    · exact .inr (.trans (List.suffix_cons 0 _) (Block.frame_of_mem_items thenBlock h))
    · exact .inr (.trans (List.suffix_cons 1 _) (Block.frame_of_mem_optionItems elseBlock h))
  | .whileLoop loc condition body, h => by
    simp only [Stmt.items, Item.ofControl, List.mem_cons, reduceCtorEq, false_or] at h
    exact .inr (Block.frame_of_mem_items body h)
  | .forLoop loc init condition update body, h => by
    simp only [Stmt.items, Item.ofControl, List.mem_cons, List.mem_append, reduceCtorEq,
      false_or] at h
    rcases h with h | h | h | h
    · exact .inr (Stmt.frame_of_mem_optionItems init h)
    · exact absurd h (Item.not_declared_mem_ofExpr? _)
    · exact .inr (Stmt.frame_of_mem_optionItems update h)
    · exact .inr (.trans (List.suffix_cons 2 _) (Block.frame_of_mem_items body h))
  | .result _ value, h => by
    simp only [Stmt.items, List.mem_cons, reduceCtorEq, false_or] at h
    exact absurd h (Item.not_declared_mem_ofExpr? value)
  | .unsupported, h => by simp [Stmt.items] at h

theorem Stmt.frame_of_mem_optionItems {φ ψ : FramePath} {n : Nat} {d : VarDecl} :
    ∀ s : Option Stmt, .declared ψ d ∈ Stmt.optionItems φ n s → φ <:+ ψ
  | none, h => by simp [Stmt.optionItems] at h
  | some s, h => suffix_of_frame (Stmt.frame_of_mem_items s h)

theorem Block.frame_of_mem_items {φ ψ : FramePath} {d : VarDecl} :
    ∀ b : Block, .declared ψ d ∈ b.items φ → φ <:+ ψ
  | .mk _ statements, h => Stmt.frame_of_mem_allItems statements h

theorem Block.frame_of_mem_optionItems {φ ψ : FramePath} {d : VarDecl} :
    ∀ b : Option Block, .declared ψ d ∈ Block.optionItems φ b → φ <:+ ψ
  | none, h => by simp [Block.optionItems] at h
  | some b, h => Block.frame_of_mem_items b h

theorem Stmt.frame_of_mem_allItems {φ ψ : FramePath} {n : Nat} {d : VarDecl} :
    ∀ ss : List Stmt, .declared ψ d ∈ Stmt.allItems φ n ss → φ <:+ ψ
  | [], h => by simp [Stmt.allItems] at h
  | s :: ss, h => by
    rw [Stmt.allItems, List.mem_append] at h
    rcases h with h | h
    · exact suffix_of_frame (Stmt.frame_of_mem_items s h)
    · exact Stmt.frame_of_mem_allItems ss h

end

end Sema
