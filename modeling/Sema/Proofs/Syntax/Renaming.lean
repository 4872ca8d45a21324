import Sema.Checking.Violation
import Sema.Syntax.Program

/-!
# Renamed programs

The names that a program gives are those of its variables, parameters among them, and those of its
functions (`Program.identifiers`). A renaming changes them where they are declared and where they
are used (`Program.rename`). The names of types and the texts of initializers stay as they are.

A renaming suits a program if it keeps its names apart and the entry point where it is
(`Renaming.Suits`). Messages show names between quotes, so no name may have a quote in it, neither
before nor after.
-/

namespace Sema

/-- The name of a variable or parameter, or of a function. -/
inductive Identifier where
  | var (name : String)
  | func (name : String)
  deriving DecidableEq

def Identifier.text : Identifier → String
  | var name => name
  | func name => name

/-- New names for the variables and parameters, and for the functions. -/
structure Renaming where
  var : String → String
  func : String → String

def Renaming.apply (ρ : Renaming) : Identifier → Identifier
  | .var name => .var (ρ.var name)
  | .func name => .func (ρ.func name)

/-! ## Expressions -/

mutual

def Expr.identifiers : Expr → List Identifier
  | .int _ _ => []
  | .float _ _ => []
  | .string _ _ => []
  | .name _ ident => [.var ident]
  | .paren _ value => value.identifiers
  | .not _ operand => operand.identifiers
  | .binary _ _ left right => left.identifiers ++ right.identifiers
  | .assign _ target value => .var target :: Expr.optionIdentifiers value
  | .call _ func args => .func func :: Expr.allIdentifiers args
  | .unsupported => []

def Expr.optionIdentifiers : Option Expr → List Identifier
  | none => []
  | some e => e.identifiers

def Expr.allIdentifiers : List Expr → List Identifier
  | [] => []
  | e :: es => e.identifiers ++ Expr.allIdentifiers es

end

mutual

def Expr.rename (ρ : Renaming) : Expr → Expr
  | .int loc value => .int loc value
  | .float loc bits => .float loc bits
  | .string loc text => .string loc text
  | .name loc ident => .name loc (ρ.var ident)
  | .paren loc value => .paren loc (value.rename ρ)
  | .not loc operand => .not loc (operand.rename ρ)
  | .binary loc op left right => .binary loc op (left.rename ρ) (right.rename ρ)
  | .assign loc target value => .assign loc (ρ.var target) (Expr.optionRename ρ value)
  | .call loc func args => .call loc (ρ.func func) (Expr.allRename ρ args)
  | .unsupported => .unsupported

def Expr.optionRename (ρ : Renaming) : Option Expr → Option Expr
  | none => none
  | some e => some (e.rename ρ)

def Expr.allRename (ρ : Renaming) : List Expr → List Expr
  | [] => []
  | e :: es => e.rename ρ :: Expr.allRename ρ es

end

/-! ## Statements -/

def VarDecl.identifiers (d : VarDecl) : List Identifier :=
  .var d.name :: Expr.optionIdentifiers d.value

def VarDecl.rename (ρ : Renaming) (d : VarDecl) : VarDecl :=
  { d with name := ρ.var d.name, value := Expr.optionRename ρ d.value }

mutual

def Stmt.identifiers : Stmt → List Identifier
  | .varDecl decl => decl.identifiers
  | .assign _ target value => .var target :: Expr.optionIdentifiers value
  | .expr _ value => value.identifiers
  | .block _ body => body.identifiers
  | .ifThen _ condition thenBlock elseBlock =>
    condition.identifiers ++ (thenBlock.identifiers ++ Block.optionIdentifiers elseBlock)
  | .whileLoop _ condition body => condition.identifiers ++ body.identifiers
  | .forLoop _ init condition update body =>
    Stmt.optionIdentifiers init ++ (Expr.optionIdentifiers condition ++
      (Stmt.optionIdentifiers update ++ body.identifiers))
  | .result _ value => Expr.optionIdentifiers value
  | .unsupported => []

def Stmt.optionIdentifiers : Option Stmt → List Identifier
  | none => []
  | some st => st.identifiers

def Block.identifiers : Block → List Identifier
  | .mk _ statements => Stmt.allIdentifiers statements

def Block.optionIdentifiers : Option Block → List Identifier
  | none => []
  | some b => b.identifiers

def Stmt.allIdentifiers : List Stmt → List Identifier
  | [] => []
  | st :: sts => st.identifiers ++ Stmt.allIdentifiers sts

end

mutual

def Stmt.rename (ρ : Renaming) : Stmt → Stmt
  | .varDecl decl => .varDecl (decl.rename ρ)
  | .assign loc target value => .assign loc (ρ.var target) (Expr.optionRename ρ value)
  | .expr loc value => .expr loc (value.rename ρ)
  | .block loc body => .block loc (body.rename ρ)
  | .ifThen loc condition thenBlock elseBlock =>
    .ifThen loc (condition.rename ρ) (thenBlock.rename ρ) (Block.optionRename ρ elseBlock)
  | .whileLoop loc condition body => .whileLoop loc (condition.rename ρ) (body.rename ρ)
  | .forLoop loc init condition update body =>
    .forLoop loc (Stmt.optionRename ρ init) (Expr.optionRename ρ condition)
      (Stmt.optionRename ρ update) (body.rename ρ)
  | .result loc value => .result loc (Expr.optionRename ρ value)
  | .unsupported => .unsupported

def Stmt.optionRename (ρ : Renaming) : Option Stmt → Option Stmt
  | none => none
  | some st => some (st.rename ρ)

def Block.rename (ρ : Renaming) : Block → Block
  | .mk loc statements => .mk loc (Stmt.allRename ρ statements)

def Block.optionRename (ρ : Renaming) : Option Block → Option Block
  | none => none
  | some b => some (b.rename ρ)

def Stmt.allRename (ρ : Renaming) : List Stmt → List Stmt
  | [] => []
  | st :: sts => st.rename ρ :: Stmt.allRename ρ sts

end

/-! ## Programs -/

def Param.rename (ρ : Renaming) (p : Param) : Param :=
  { p with name := ρ.var p.name }

def FunctionDef.identifiers (f : FunctionDef) : List Identifier :=
  .func f.name :: (f.params.map (fun p => .var p.name) ++ f.body.identifiers)

def FunctionDef.rename (ρ : Renaming) (f : FunctionDef) : FunctionDef :=
  { f with
    name := ρ.func f.name
    params := f.params.map (Param.rename ρ)
    body := f.body.rename ρ }

def Decl.identifiers : Decl → List Identifier
  | .func f => f.identifiers
  | .var d => d.identifiers
  | .unsupported => []

def Decl.rename (ρ : Renaming) : Decl → Decl
  | .func f => .func (f.rename ρ)
  | .var d => .var (d.rename ρ)
  | .unsupported => .unsupported

/-- The names in a program. That of the entry point belongs to every program, since it is looked
for. -/
def Program.identifiers (p : Program) : List Identifier :=
  .func mainName :: p.declarations.flatMap Decl.identifiers

/-- A program with new names. -/
def Program.rename (ρ : Renaming) (p : Program) : Program where
  declarations := p.declarations.map (Decl.rename ρ)

theorem Decl.function?_rename (ρ : Renaming) (d : Decl) :
    (d.rename ρ).function? = d.function?.map (FunctionDef.rename ρ) := by
  cases d <;> rfl

theorem Program.functions_rename (ρ : Renaming) (p : Program) :
    (p.rename ρ).functions = p.functions.map (FunctionDef.rename ρ) := by
  simp only [functions, rename, List.filterMap_map, List.map_filterMap]
  exact congrArg (List.filterMap · p.declarations) (funext (Decl.function?_rename ρ))

theorem Block.statements_rename (ρ : Renaming) (b : Block) :
    (b.rename ρ).statements = Stmt.allRename ρ b.statements := by
  cases b
  rfl

/-! ## Renamings that suit a program -/

def QuoteFree (name : String) : Prop :=
  '\'' ∉ name.toList

instance (name : String) : Decidable (QuoteFree name) :=
  inferInstanceAs (Decidable ('\'' ∉ name.toList))

namespace Renaming

/-- Whether the names of a program stay apart and free of quotes, and the entry point keeps its
own. -/
structure Suits (ρ : Renaming) (p : Program) : Prop where
  injective : ∀ i ∈ p.identifiers, ∀ j ∈ p.identifiers, ρ.apply i = ρ.apply j → i = j
  main : ρ.func mainName = mainName
  quoteFree : ∀ i ∈ p.identifiers, QuoteFree i.text
  quoteFree_apply : ∀ i ∈ p.identifiers, QuoteFree (ρ.apply i).text

namespace Suits

variable {ρ : Renaming} {p : Program}

theorem var_inj (hρ : ρ.Suits p) {x y : String} (hx : .var x ∈ p.identifiers)
    (hy : .var y ∈ p.identifiers) : ρ.var x = ρ.var y ↔ x = y := by
  refine ⟨fun h => ?_, congrArg ρ.var⟩
  exact Identifier.var.inj (hρ.injective _ hx _ hy (congrArg Identifier.var h))

theorem func_inj (hρ : ρ.Suits p) {f g : String} (hf : .func f ∈ p.identifiers)
    (hg : .func g ∈ p.identifiers) : ρ.func f = ρ.func g ↔ f = g := by
  refine ⟨fun h => ?_, congrArg ρ.func⟩
  exact Identifier.func.inj (hρ.injective _ hf _ hg (congrArg Identifier.func h))

theorem func_eq_main_iff (hρ : ρ.Suits p) {f : String} (hf : .func f ∈ p.identifiers) :
    ρ.func f = mainName ↔ f = mainName := by
  have hmain := hρ.func_inj hf (List.mem_cons_self : .func mainName ∈ p.identifiers)
  rwa [hρ.main] at hmain

end Suits

end Renaming

end Sema
