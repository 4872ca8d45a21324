import Sema.Checking.Violation
import Sema.Syntax.Program

/-!
# The typing rules

When a program is well typed, as a judgement on its syntax alone. A context lists the variables that
are declared before a place, frame by frame and innermost first; the functions of the program are
known everywhere.

* `HasType fs Γ e τ`: the expression `e` has the type `τ` in the context `Γ`.
* `StmtOk fs ρ Γ s Γ'`: the statement `s` may stand in a function with the result `ρ` after the
  declarations `Γ`, and leaves the declarations `Γ'`.
* `Program.WellTyped`: the program may stand as it is.

Arithmetic on operands that have no common number has the type `unknown`, which fits nowhere; an
expression of that type may stand where its value is not used.
-/

namespace Sema

namespace Typing

/-! ## Types -/

/-- The type that a declaration names; a missing name stands for `void`. -/
inductive Names : Option String → Ty → Prop
  | absent : Names none .void
  | int : Names (some "int") .int
  | float : Names (some "float") .float
  | double : Names (some "double") .double
  | string : Names (some "string") .string
  | void : Names (some "void") .void

/-- `Fits target value`: a place of type `target` takes a value of type `value`. -/
inductive Fits : Ty → Ty → Prop
  | same {τ : Ty} (known : τ ≠ .unknown) : Fits τ τ
  | null {τ : Ty} : Fits τ .null
  | intToFloat : Fits .float .int
  | intToDouble : Fits .double .int
  | floatToDouble : Fits .double .float

/-- The types of fractional numbers. -/
inductive Fractional : Ty → Prop
  | float : Fractional .float
  | double : Fractional .double

/-- `Product σ τ υ`: a product or quotient of a `σ` and a `τ` is a `υ`. -/
inductive Product : Ty → Ty → Ty → Prop
  | left {σ τ : Ty} (fractional : Fractional σ) : Product σ τ .float
  | right {σ τ : Ty} (fractional : Fractional τ) : Product σ τ .float
  | int : Product .int .int .int
  | none {σ τ : Ty} (left : ¬Fractional σ) (right : ¬Fractional τ)
      (integers : ¬(σ = .int ∧ τ = .int)) : Product σ τ .unknown

/-- `Sum σ τ υ`: a sum or difference of a `σ` and a `τ` is a `υ`. -/
inductive Sum : Ty → Ty → Ty → Prop
  | left {τ : Ty} : Sum .string τ .string
  | right {σ : Ty} : Sum σ .string .string
  | numbers {σ τ υ : Ty} (left : σ ≠ .string) (right : τ ≠ .string) (product : Product σ τ υ) :
      Sum σ τ υ

/-- The type of an operation by the spelling of its operator; comparisons and logic yield `int`. -/
inductive Operation : String → Ty → Ty → Ty → Prop
  | sum {op : String} {σ τ υ : Ty} (additive : op ∈ ["+", "-"]) (sum : Sum σ τ υ) :
      Operation op σ τ υ
  | product {op : String} {σ τ υ : Ty} (multiplicative : op ∈ ["*", "/"])
      (product : Product σ τ υ) : Operation op σ τ υ
  | truth {op : String} {σ τ : Ty}
      (logical : op ∈ ["||", "&&", "==", "!=", "<", "<=", ">", ">="]) : Operation op σ τ .int

/-! ## Contexts -/

/-- A declared variable, as far as its uses depend on it. -/
structure Variable where
  name : String
  type : Ty
  isConst : Bool

abbrev Frame := List Variable

abbrev Context := List Frame

def Frame.Lacks (F : Frame) (x : String) : Prop :=
  ∀ v ∈ F, v.name ≠ x

/-- `Resolves Γ x v`: the name `x` stands for the variable `v` of the nearest frame that has one. -/
inductive Resolves : Context → String → Variable → Prop
  | here {F : Frame} {Γ : Context} {x : String} {v : Variable} (mem : v ∈ F) (name : v.name = x) :
      Resolves (F :: Γ) x v
  | outer {F : Frame} {Γ : Context} {x : String} {v : Variable} (lacks : F.Lacks x)
      (resolves : Resolves Γ x v) : Resolves (F :: Γ) x v

/-! ## Expressions -/

/-- The parameters of a function take values of the given types, one by one. -/
inductive ParamsTake : List Param → List Ty → Prop
  | nil : ParamsTake [] []
  | cons {p : Param} {ps : List Param} {τ σ : Ty} {σs : List Ty} (declared : Names p.type τ)
      (fits : Fits τ σ) (rest : ParamsTake ps σs) : ParamsTake (p :: ps) (σ :: σs)

mutual

/-- The types of expressions. -/
inductive HasType (fs : List FunctionDef) (Γ : Context) : Expr → Ty → Prop
  | int {loc : Location} {n : Int} : HasType fs Γ (.int loc n) .int
  | float {loc : Location} {bits : UInt64} : HasType fs Γ (.float loc bits) .float
  | string {loc : Location} {text : String} : HasType fs Γ (.string loc text) .string
  | name {loc : Location} {x : String} {v : Variable} (resolves : Resolves Γ x v) :
      HasType fs Γ (.name loc x) v.type
  | paren {loc : Location} {e : Expr} {τ : Ty} (value : HasType fs Γ e τ) :
      HasType fs Γ (.paren loc e) τ
  | not {loc : Location} {e : Expr} {τ : Ty} (operand : HasType fs Γ e τ) :
      HasType fs Γ (.not loc e) .int
  | binary {loc : Location} {op : String} {l r : Expr} {σ τ υ : Ty} (left : HasType fs Γ l σ)
      (right : HasType fs Γ r τ) (operation : Operation op σ τ υ) :
      HasType fs Γ (.binary loc op l r) υ
  | target {loc : Location} {x : String} {v : Variable} (resolves : Resolves Γ x v)
      (mutable : v.isConst = false) : HasType fs Γ (.assign loc x none) v.type
  | assign {loc : Location} {x : String} {v : Variable} {e : Expr} {σ : Ty}
      (resolves : Resolves Γ x v) (mutable : v.isConst = false) (value : HasType fs Γ e σ)
      (fits : Fits v.type σ) : HasType fs Γ (.assign loc x (some e)) v.type
  | call {loc : Location} {f : FunctionDef} {args : List Expr} {σs : List Ty} {τ : Ty}
      (mem : f ∈ fs) (notMain : f.name ≠ mainName) (result : Names f.returnType τ)
      (arguments : HaveTypes fs Γ args σs) (taken : ParamsTake f.params σs) :
      HasType fs Γ (.call loc f.name args) τ

inductive HaveTypes (fs : List FunctionDef) (Γ : Context) : List Expr → List Ty → Prop
  | nil : HaveTypes fs Γ [] []
  | cons {e : Expr} {es : List Expr} {τ : Ty} {τs : List Ty} (first : HasType fs Γ e τ)
      (rest : HaveTypes fs Γ es τs) : HaveTypes fs Γ (e :: es) (τ :: τs)

end

/-! ## Statements -/

/-- `Declares fs Γ d Γ'`: the declaration `d` may stand after `Γ` and adds its variable to the
innermost frame. The initializer does not see the variable. -/
inductive Declares (fs : List FunctionDef) : Context → VarDecl → Context → Prop
  | mk {F : Frame} {Γ : Context} {d : VarDecl} {τ : Ty} (named : Names d.type τ)
      (initializer : ∀ e, d.value = some e → ∃ σ, HasType fs (F :: Γ) e σ ∧ Fits τ σ)
      (fresh : F.Lacks d.name) :
      Declares fs (F :: Γ) d ((⟨d.name, τ, d.isConst⟩ :: F) :: Γ)

def ConditionOk (fs : List FunctionDef) (Γ : Context) (condition : Option Expr) : Prop :=
  ∀ e, condition = some e → ∃ τ, HasType fs Γ e τ

mutual

/-- The statements that may stand after `Γ` in a function with the result `ρ`, with what they
declare. -/
inductive StmtOk (fs : List FunctionDef) (ρ : Ty) : Context → Stmt → Context → Prop
  | varDecl {Γ Γ' : Context} {d : VarDecl} (declares : Declares fs Γ d Γ') :
      StmtOk fs ρ Γ (.varDecl d) Γ'
  | assign {Γ : Context} {loc : Location} {x : String} {value : Option Expr} {τ : Ty}
      (assigned : HasType fs Γ (.assign loc x value) τ) : StmtOk fs ρ Γ (.assign loc x value) Γ
  | expr {Γ : Context} {loc : Location} {e : Expr} {τ : Ty} (value : HasType fs Γ e τ) :
      StmtOk fs ρ Γ (.expr loc e) Γ
  | block {Γ : Context} {loc : Location} {b : Block} (body : BlockOk fs ρ Γ b) :
      StmtOk fs ρ Γ (.block loc b) Γ
  | ifThen {Γ : Context} {loc : Location} {e : Expr} {τ : Ty} {yes : Block} {no : Option Block}
      (condition : HasType fs Γ e τ) (thenBlock : BlockOk fs ρ Γ yes)
      (elseBlock : OptionBlockOk fs ρ Γ no) : StmtOk fs ρ Γ (.ifThen loc e yes no) Γ
  | whileLoop {Γ : Context} {loc : Location} {e : Expr} {τ : Ty} {b : Block}
      (condition : HasType fs Γ e τ) (body : BlockOk fs ρ Γ b) :
      StmtOk fs ρ Γ (.whileLoop loc e b) Γ
  | forLoop {Γ Γ₁ Γ₂ : Context} {loc : Location} {init : Option Stmt} {condition : Option Expr}
      {update : Option Stmt} {b : Block} (start : OptionStmtOk fs ρ ([] :: Γ) init Γ₁)
      (test : ConditionOk fs Γ₁ condition) (step : OptionStmtOk fs ρ Γ₁ update Γ₂)
      (body : BlockOk fs ρ Γ₂ b) : StmtOk fs ρ Γ (.forLoop loc init condition update b) Γ
  | returnBare {Γ : Context} {loc : Location} (fits : Fits ρ .void) :
      StmtOk fs ρ Γ (.result loc none) Γ
  | returnValue {Γ : Context} {loc : Location} {e : Expr} {σ : Ty} (value : HasType fs Γ e σ)
      (fits : Fits ρ σ) : StmtOk fs ρ Γ (.result loc (some e)) Γ

inductive OptionStmtOk (fs : List FunctionDef) (ρ : Ty) :
    Context → Option Stmt → Context → Prop
  | none {Γ : Context} : OptionStmtOk fs ρ Γ none Γ
  | some {Γ Γ' : Context} {s : Stmt} (stmt : StmtOk fs ρ Γ s Γ') :
      OptionStmtOk fs ρ Γ (some s) Γ'

inductive BlockOk (fs : List FunctionDef) (ρ : Ty) : Context → Block → Prop
  | mk {Γ Γ' : Context} {loc : Location} {ss : List Stmt} (stmts : StmtsOk fs ρ ([] :: Γ) ss Γ') :
      BlockOk fs ρ Γ (.mk loc ss)

inductive OptionBlockOk (fs : List FunctionDef) (ρ : Ty) : Context → Option Block → Prop
  | none {Γ : Context} : OptionBlockOk fs ρ Γ none
  | some {Γ : Context} {b : Block} (block : BlockOk fs ρ Γ b) : OptionBlockOk fs ρ Γ (some b)

inductive StmtsOk (fs : List FunctionDef) (ρ : Ty) : Context → List Stmt → Context → Prop
  | nil {Γ : Context} : StmtsOk fs ρ Γ [] Γ
  | cons {Γ Γ₁ Γ' : Context} {s : Stmt} {ss : List Stmt} (first : StmtOk fs ρ Γ s Γ₁)
      (rest : StmtsOk fs ρ Γ₁ ss Γ') : StmtsOk fs ρ Γ (s :: ss) Γ'

end

/-! ## Returns -/

mutual

/-- The statements that contain a `return`. -/
inductive Returns : Stmt → Prop
  | result {loc : Location} {value : Option Expr} : Returns (.result loc value)
  | block {loc : Location} {b : Block} (body : BlockReturns b) : Returns (.block loc b)
  | thenBlock {loc : Location} {e : Expr} {yes : Block} {no : Option Block}
      (body : BlockReturns yes) : Returns (.ifThen loc e yes no)
  | elseBlock {loc : Location} {e : Expr} {yes no : Block} (body : BlockReturns no) :
      Returns (.ifThen loc e yes (some no))
  | whileLoop {loc : Location} {e : Expr} {b : Block} (body : BlockReturns b) :
      Returns (.whileLoop loc e b)
  | forInit {loc : Location} {init : Stmt} {condition : Option Expr} {update : Option Stmt}
      {b : Block} (stmt : Returns init) : Returns (.forLoop loc (some init) condition update b)
  | forUpdate {loc : Location} {init : Option Stmt} {condition : Option Expr} {update : Stmt}
      {b : Block} (stmt : Returns update) : Returns (.forLoop loc init condition (some update) b)
  | forLoop {loc : Location} {init : Option Stmt} {condition : Option Expr} {update : Option Stmt}
      {b : Block} (body : BlockReturns b) : Returns (.forLoop loc init condition update b)

inductive BlockReturns : Block → Prop
  | mk {loc : Location} {ss : List Stmt} (stmts : StmtsReturn ss) : BlockReturns (.mk loc ss)

inductive StmtsReturn : List Stmt → Prop
  | head {s : Stmt} {ss : List Stmt} (stmt : Returns s) : StmtsReturn (s :: ss)
  | tail {s : Stmt} {ss : List Stmt} (stmts : StmtsReturn ss) : StmtsReturn (s :: ss)

end

/-! ## Programs -/

/-- `ParamsOk F ps F'`: the parameters `ps` may stand after those of `F`, with which they make the
frame `F'`. -/
inductive ParamsOk : Frame → List Param → Frame → Prop
  | nil {F : Frame} : ParamsOk F [] F
  | cons {F F' : Frame} {p : Param} {ps : List Param} {τ : Ty} (named : Names p.type τ)
      (fresh : F.Lacks p.name) (rest : ParamsOk (⟨p.name, τ, false⟩ :: F) ps F') :
      ParamsOk F (p :: ps) F'

/-- The functions that may stand after the global variables `G`. The parameters and the statements
of the body share a frame, and a result that is not `void` needs a `return`. -/
inductive FunctionOk (fs : List FunctionDef) (G : Frame) : FunctionDef → Prop
  | mk {f : FunctionDef} {ρ : Ty} {F : Frame} {Γ : Context} (named : Names f.returnType ρ)
      (params : ParamsOk [] f.params F) (body : StmtsOk fs ρ [F, G] f.body.statements Γ)
      (returns : ρ ≠ .void → StmtsReturn f.body.statements) : FunctionOk fs G f

/-- The declarations that may stand after the global variables `G`. -/
inductive DeclsOk (fs : List FunctionDef) : Frame → List Decl → Prop
  | nil {G : Frame} : DeclsOk fs G []
  | func {G : Frame} {f : FunctionDef} {ds : List Decl} (function : FunctionOk fs G f)
      (rest : DeclsOk fs G ds) : DeclsOk fs G (.func f :: ds)
  | var {G G' : Frame} {d : VarDecl} {ds : List Decl} (declares : Declares fs [G] d [G'])
      (rest : DeclsOk fs G' ds) : DeclsOk fs G (.var d :: ds)

end Typing

/-- A well-typed program has an entry point, no two functions of one name, and declarations that
may stand in their order. -/
structure Program.WellTyped (p : Program) : Prop where
  hasMain : ∃ f ∈ p.functions, f.name = mainName
  distinct : (p.functions.map (·.name)).Nodup
  declarations : Typing.DeclsOk p.functions [] p.declarations

end Sema
