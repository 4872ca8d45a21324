import Sema.Calls.Analysis
import Sema.Proofs.Calls.Reading

/-!
# How deep the calls on a derivation are

The calls on a derivation are within each other as its tokens allow: those of reading it no deeper
than twice as many (`SpellsProgram.height_reading_le`), and those of checking what it spells neither
(`SpellsProgram.height_checking_le`), up to the calls on the program as a whole. An expression takes
no more calls to be read than it has tokens, but a block in a block may take three for its braces.
-/

namespace Sema

namespace Calls

/-! ## Heights -/

mutual

/-- How many calls are within each other, whether or not an error is raised before. -/
@[simp] def height : Calls → Nat
  | raise _ => 0
  | call inner => heightAll inner + 1

@[simp] def heightAll : List Calls → Nat
  | [] => 0
  | c :: cs => max (height c) (heightAll cs)

end

mutual

theorem depth_le_height : ∀ c : Calls, c.depth ≤ c.height
  | raise _ => Nat.le_refl 0
  | call inner => Nat.succ_le_succ (depthAll_le_heightAll inner)

theorem depthAll_le_heightAll : ∀ cs : List Calls, depthAll cs ≤ heightAll cs
  | [] => Nat.le_refl 0
  | c :: cs => by
    have hc := depth_le_height c
    have hcs := depthAll_le_heightAll cs
    rw [depthAll, heightAll]
    cases c.ending with
    | error e => exact Nat.le_trans hc (Nat.le_max_left _ _)
    | ok u =>
      show max c.depth (depthAll cs) ≤ max c.height (heightAll cs)
      omega

end

@[simp] theorem heightAll_append (cs ds : List Calls) :
    heightAll (cs ++ ds) = max (heightAll cs) (heightAll ds) := by
  induction cs with
  | nil => simp
  | cons c cs ih => simp [ih, Nat.max_assoc]

@[simp] theorem heightAll_nested (n : Nat) : heightAll (nested n) = n := by
  induction n with
  | zero => rfl
  | succ n ih => simp [nested, ih]

theorem heightAll_listed_le (own : Bool) {cs : List Calls} {n : Nat} (h : heightAll cs ≤ n) :
    heightAll (listed own cs) ≤ n + 1 := by
  cases own with
  | false => exact Nat.le_succ_of_le h
  | true => simpa [listed] using h

end Calls

/-! ## Reading -/

attribute [local simp] Tree.leaves Tree.leavesAll

@[simp] theorem Reading.height_integerCalls (text : String) :
    (Reading.integerCalls text).height = 1 := by
  rw [Reading.integerCalls]
  cases Reading.integer text <;> rfl

mutual

theorem SpellsExpr.height_reading_le (own : Bool) : ∀ {t : Tree} {e : Expr}, SpellsExpr t e →
    (Reading.exprCalls own t).height ≤ t.leaves.length
  | _, _, .expr part | _, _, .assignNone part | _, _, .operand part | _, _, .unaryAtom part => by
    simpa [Reading.exprCalls] using part.height_reading_le own
  | _, _, .assignTo value | _, _, .not value | _, _, .paren value => by
    have h := value.height_reading_le own
    simp [Reading.exprCalls]
    omega
  | _, _, .binary left right => by
    have hleft := left.height_reading_le own
    have hright := right.height_reading_le own
    simp [Reading.exprCalls]
    omega
  | _, _, .int | _, _, .float _ | _, _, .string _ | _, _, .name | _, _, .callEmpty => by
    simp [Reading.exprCalls]
  | _, _, .call arguments => by
    have h := Calls.heightAll_listed_le own (arguments.height_reading_le own)
    simp [Reading.exprCalls]
    omega

theorem SpellsArgs.height_reading_le (own : Bool) : ∀ {t : Tree} {es : List Expr},
    SpellsArgs t es → Calls.heightAll (Reading.argsCalls own t) ≤ t.leaves.length
  | _, _, .many first rest => by
    have hfirst := first.height_reading_le own
    have hrest := rest.height_reading_le own
    simp [Reading.argsCalls]
    omega
  | _, _, .one only | _, _, .tailFirst only => by
    have h := only.height_reading_le own
    simp [Reading.argsCalls]
    omega
  | _, _, .tailMore more last => by
    have hmore := more.height_reading_le own
    have hlast := last.height_reading_le own
    simp [Reading.argsCalls]
    omega

end

section Source

variable (own : Bool) {source : List Char} {t : Tree}

theorem SpellsVar.height_reading_le {d : VarDecl} (h : SpellsVar source t d) :
    (Reading.varSpecCalls own t).height ≤ t.leaves.length + 1 := by
  cases h with
  | plain typed | constant typed =>
    cases typed
    simp [Reading.varSpecCalls]
  | plainInit typed value | constantInit typed value =>
    have h := value.height_reading_le own
    simp [Reading.varSpecCalls]
    omega

theorem SpellsInit.height_reading_le {init : Option Stmt} (h : SpellsInit source t init) :
    (Reading.forInitCalls own t).height ≤ t.leaves.length + 2 := by
  cases h with
  | var spec =>
    have h := spec.height_reading_le own
    simp [Reading.forInitCalls]
    omega
  | expr value _ =>
    have h := value.height_reading_le own
    simp [Reading.forInitCalls]
    omega
  | empty => simp [Reading.forInitCalls]

theorem SpellsCond.height_reading_le {condition : Option Expr} (h : SpellsCond t condition) :
    (Reading.forCondCalls own t).height ≤ t.leaves.length + 2 := by
  cases h with
  | expr value =>
    have h := value.height_reading_le own
    simp [Reading.forCondCalls]
    omega
  | empty => simp [Reading.forCondCalls]

theorem SpellsUpdate.height_reading_le {update : Option Stmt} (h : SpellsUpdate t update) :
    (Reading.forUpdateCalls own t).height ≤ t.leaves.length + 2 := by
  cases h with
  | expr value _ =>
    have h := value.height_reading_le own
    simp [Reading.forUpdateCalls]
    omega
  | empty => simp [Reading.forUpdateCalls]

end Source

mutual

theorem SpellsStmt.height_reading_le (own : Bool) {source : List Char} : ∀ {t : Tree} {s : Stmt},
    SpellsStmt source t s → (Reading.stmtCalls own t).height ≤ 2 * t.leaves.length
  | _, _, .varDecl spec => by
    have h := spec.height_reading_le own
    simp [Reading.stmtCalls]
    omega
  | _, _, .block body => by
    have h := body.height_reading_le own
    simp [Reading.stmtCalls]
    omega
  | _, _, .form other part => by
    rw [Reading.stmtCalls_form other own]
    simpa using part.height_reading_le own
  | _, _, .expr value _ | _, _, .returnValue value => by
    have h := value.height_reading_le own
    simp [Reading.stmtCalls]
    omega
  | _, _, .ifThen condition body | _, _, .whileLoop condition body => by
    have hcondition := condition.height_reading_le own
    have hbody := body.height_reading_le own
    simp [Reading.stmtCalls]
    omega
  | _, _, .ifElse condition thenBlock elseBlock => by
    have hcondition := condition.height_reading_le own
    have hthen := thenBlock.height_reading_le own
    have helse := elseBlock.height_reading_le own
    simp [Reading.stmtCalls]
    omega
  | _, _, .ifElseIf condition thenBlock elseIf => by
    have hcondition := condition.height_reading_le own
    have hthen := thenBlock.height_reading_le own
    have helse := elseIf.height_reading_le own
    simp [Reading.stmtCalls]
    omega
  | _, _, .forLoop start test step loop => by
    have hstart := start.height_reading_le own
    have htest := test.height_reading_le own
    have hstep := step.height_reading_le own
    have hloop := loop.height_reading_le own
    simp [Reading.stmtCalls]
    omega
  | _, _, .returnBare => by simp [Reading.stmtCalls]

theorem SpellsBlock.height_reading_le (own : Bool) {source : List Char} :
    ∀ {t : Tree} {b : Block}, SpellsBlock source t b →
      (Reading.blockCalls own t).height + 2 ≤ 2 * t.leaves.length
  | _, _, .full body => by
    have h := Calls.heightAll_listed_le own (body.height_reading_le own)
    simp [Reading.blockCalls]
    omega
  | _, _, .empty => by
    have h := Calls.heightAll_listed_le own (Nat.le_refl (Calls.heightAll []))
    simp [Reading.blockCalls] at h ⊢
    omega

theorem SpellsStmts.height_reading_le (own : Bool) {source : List Char} :
    ∀ {t : Tree} {ss : List Stmt}, SpellsStmts source t ss →
      Calls.heightAll (Reading.stmtsCalls own t) ≤ 2 * t.leaves.length
  | _, _, .first only => by simpa [Reading.stmtsCalls] using only.height_reading_le own
  | _, _, .more before last => by
    have hbefore := before.height_reading_le own
    have hlast := last.height_reading_le own
    simp [Reading.stmtsCalls]
    omega

end

section Source

variable (own : Bool) {source : List Char} {t : Tree}

theorem SpellsParams.height_reading_le {ps : List Param} (h : SpellsParams t ps) :
    Calls.heightAll (Reading.paramsCalls t) ≤ 2 := by
  induction h with
  | many _ _ ih | tailMore _ _ ih =>
    simp [Reading.paramsCalls]
    omega
  | one | tailFirst => simp [Reading.paramsCalls]

theorem SpellsFunction.height_reading_le {f : FunctionDef} (h : SpellsFunction source t f) :
    (Reading.funcDefCalls own t).height ≤ 2 * t.leaves.length := by
  cases h with
  | params type parameters block =>
    have hparameters := Calls.heightAll_listed_le own parameters.height_reading_le
    have hblock := block.height_reading_le own
    cases type <;> simp [Reading.funcDefCalls, Reading.funcPartsCalls] <;> omega
  | noParams type block =>
    have hblock := block.height_reading_le own
    cases type <;> simp [Reading.funcDefCalls, Reading.funcPartsCalls] <;> omega

theorem SpellsDecls.height_reading_le {ds : List Decl} (h : SpellsDecls source t ds) :
    Calls.heightAll (Reading.declsCalls own t) ≤ 2 * t.leaves.length := by
  have decl : ∀ {t : Tree} {d : Decl}, SpellsDecl source t d →
      (Reading.declCalls own t).height ≤ 2 * t.leaves.length := by
    intro t d h
    cases h with
    | var spec =>
      have h := spec.height_reading_le own
      simp [Reading.declCalls]
      omega
    | func function => simpa [Reading.declCalls] using function.height_reading_le own
  induction h with
  | first only => simpa [Reading.declsCalls] using decl only
  | more _ last ih =>
    have hlast := decl last
    simp [Reading.declsCalls]
    omega

theorem SpellsProgram.height_reading_le {p : Program} (h : SpellsProgram source t p) :
    (Reading.programCalls own t).height ≤ 2 * t.leaves.length + 2 := by
  cases h with
  | decls declarations =>
    have h := declarations.height_reading_le own
    simp [Reading.programCalls]
    omega
  | empty => simp [Reading.programCalls]

end Source

/-! ## Checking -/

@[simp] theorem Checking.heightAll_operatorCalls (op : String) :
    Calls.heightAll (operatorCalls op) = 0 := by
  rw [operatorCalls]
  split <;> rfl

@[simp] theorem Checking.heightAll_exprsCalls_append (es es' : List Expr) :
    Calls.heightAll (exprsCalls (es ++ es')) =
      max (Calls.heightAll (exprsCalls es)) (Calls.heightAll (exprsCalls es')) := by
  induction es with
  | nil => simp [exprsCalls]
  | cons e es ih => simp [exprsCalls, ih, Nat.max_assoc]

@[simp] theorem Checking.heightAll_stmtsCalls_append (ss ss' : List Stmt) :
    Calls.heightAll (stmtsCalls (ss ++ ss')) =
      max (Calls.heightAll (stmtsCalls ss)) (Calls.heightAll (stmtsCalls ss')) := by
  induction ss with
  | nil => simp [stmtsCalls]
  | cons s ss ih => simp [stmtsCalls, ih, Nat.max_assoc]

mutual

theorem SpellsExpr.height_checking_le : ∀ {t : Tree} {e : Expr}, SpellsExpr t e →
    (Checking.exprCalls e).height ≤ 2 * t.leaves.length
  | _, _, .expr part | _, _, .assignNone part | _, _, .operand part | _, _, .unaryAtom part => by
    simpa using part.height_checking_le
  | _, _, .assignTo value | _, _, .not value | _, _, .paren value => by
    have h := value.height_checking_le
    simp [Checking.exprCalls, Checking.exprCalls?]
    omega
  | _, _, .binary left right => by
    have hleft := left.height_checking_le
    have hright := right.height_checking_le
    simp [Checking.exprCalls]
    omega
  | _, _, .int | _, _, .float _ | _, _, .string _ | _, _, .name | _, _, .callEmpty => by
    simp [Checking.exprCalls, Checking.exprsCalls]
  | _, _, .call arguments => by
    have h := arguments.height_checking_le
    simp [Checking.exprCalls]
    omega

theorem SpellsArgs.height_checking_le : ∀ {t : Tree} {es : List Expr}, SpellsArgs t es →
    Calls.heightAll (Checking.exprsCalls es) ≤ 2 * t.leaves.length
  | _, _, .many first rest => by
    have hfirst := first.height_checking_le
    have hrest := rest.height_checking_le
    simp [Checking.exprsCalls]
    omega
  | _, _, .one only | _, _, .tailFirst only => by
    have h := only.height_checking_le
    simp [Checking.exprsCalls]
    omega
  | _, _, .tailMore more last => by
    have hmore := more.height_checking_le
    have hlast := last.height_checking_le
    simp [Checking.exprsCalls]
    omega

end

theorem Performs.height_checking_le {e : Expr} {s : Stmt} (h : Performs e s) :
    (Checking.stmtCalls s).height ≤ (Checking.exprCalls e).height + 1 := by
  cases h <;> simp [Checking.stmtCalls, Checking.exprCalls]

section Source

variable {source : List Char} {t : Tree}

theorem SpellsVar.height_checking_le {d : VarDecl} (h : SpellsVar source t d) :
    (Checking.varDeclCall d).height ≤ 2 * t.leaves.length := by
  cases h with
  | plain typed | constant typed =>
    simp [Checking.varDeclCall, Checking.exprCalls?]
    omega
  | plainInit typed value | constantInit typed value =>
    have h := value.height_checking_le
    simp [Checking.varDeclCall, Checking.exprCalls?]
    omega

theorem SpellsInit.height_checking_le {init : Option Stmt} (h : SpellsInit source t init) :
    Calls.heightAll (Checking.stmtCalls? init) ≤ 2 * t.leaves.length + 1 := by
  cases h with
  | var spec => simpa [Checking.stmtCalls?, Checking.stmtCalls] using spec.height_checking_le
  | expr value performs =>
    have hvalue := value.height_checking_le
    have hstmt := performs.height_checking_le
    simp [Checking.stmtCalls?]
    omega
  | empty => simp [Checking.stmtCalls?]

theorem SpellsCond.height_checking_le {condition : Option Expr} (h : SpellsCond t condition) :
    Calls.heightAll (Checking.exprCalls? condition) ≤ 2 * t.leaves.length := by
  cases h with
  | expr value => simpa [Checking.exprCalls?] using value.height_checking_le
  | empty => simp [Checking.exprCalls?]

theorem SpellsUpdate.height_checking_le {update : Option Stmt} (h : SpellsUpdate t update) :
    Calls.heightAll (Checking.stmtCalls? update) ≤ 2 * t.leaves.length + 1 := by
  cases h with
  | expr value performs =>
    have hvalue := value.height_checking_le
    have hstmt := performs.height_checking_le
    simp [Checking.stmtCalls?]
    omega
  | empty => simp [Checking.stmtCalls?]

end Source

mutual

theorem SpellsStmt.height_checking_le {source : List Char} : ∀ {t : Tree} {s : Stmt},
    SpellsStmt source t s → (Checking.stmtCalls s).height ≤ 2 * t.leaves.length
  | _, _, .varDecl spec => by
    have h := spec.height_checking_le
    simp [Checking.stmtCalls]
    omega
  | _, _, .block body => by
    have h := body.height_checking_le
    simp [Checking.stmtCalls]
    omega
  | _, _, .form other part => by simpa using part.height_checking_le
  | _, _, .expr value performs => by
    have hvalue := value.height_checking_le
    have hstmt := performs.height_checking_le
    simp
    omega
  | _, _, .returnValue value => by
    have h := value.height_checking_le
    simp [Checking.stmtCalls, Checking.exprCalls?]
    omega
  | _, _, .ifThen condition body | _, _, .whileLoop condition body => by
    have hcondition := condition.height_checking_le
    have hbody := body.height_checking_le
    simp [Checking.stmtCalls, Checking.blockCalls?]
    omega
  | _, _, .ifElse condition thenBlock elseBlock => by
    have hcondition := condition.height_checking_le
    have hthen := thenBlock.height_checking_le
    have helse := elseBlock.height_checking_le
    simp [Checking.stmtCalls, Checking.blockCalls?]
    omega
  | _, _, .ifElseIf condition thenBlock elseIf => by
    have hcondition := condition.height_checking_le
    have hthen := thenBlock.height_checking_le
    have helse := elseIf.height_checking_le
    simp [Checking.stmtCalls, Checking.blockCalls?, Checking.blockCalls, Checking.stmtsCalls]
    omega
  | _, _, .forLoop start test step loop => by
    have hstart := start.height_checking_le
    have htest := test.height_checking_le
    have hstep := step.height_checking_le
    have hloop := loop.height_checking_le
    simp [Checking.stmtCalls]
    omega
  | _, _, .returnBare => by simp [Checking.stmtCalls, Checking.exprCalls?]

theorem SpellsBlock.height_checking_le {source : List Char} : ∀ {t : Tree} {b : Block},
    SpellsBlock source t b → (Checking.blockCalls b).height + 3 ≤ 2 * t.leaves.length
  | _, _, .full body => by
    have h := body.height_checking_le
    simp [Checking.blockCalls]
    omega
  | _, _, .empty => by simp [Checking.blockCalls, Checking.stmtsCalls]

theorem SpellsStmts.height_checking_le {source : List Char} : ∀ {t : Tree} {ss : List Stmt},
    SpellsStmts source t ss → Calls.heightAll (Checking.stmtsCalls ss) ≤ 2 * t.leaves.length
  | _, _, .first only => by simpa [Checking.stmtsCalls] using only.height_checking_le
  | _, _, .more before last => by
    have hbefore := before.height_checking_le
    have hlast := last.height_checking_le
    simp [Checking.stmtsCalls]
    omega

end

section Source

variable {source : List Char} {t : Tree}

theorem SpellsFunction.height_checking_le {f : FunctionDef} (h : SpellsFunction source t f) :
    Calls.heightAll (Checking.stmtsCalls f.body.statements) + 1 ≤ 2 * t.leaves.length := by
  have body : ∀ {t : Tree} {b : Block}, SpellsBlock source t b →
      Calls.heightAll (Checking.stmtsCalls b.statements) + 4 ≤ 2 * t.leaves.length := by
    intro t b h
    have := h.height_checking_le
    cases b
    simpa [Checking.blockCalls, Block.statements] using this
  cases h with
  | params type parameters block =>
    have := body block
    simp [Automaton.Stack.leavesAll_append]
    omega
  | noParams type block =>
    have := body block
    simp [Automaton.Stack.leavesAll_append]
    omega

theorem SpellsDecls.height_checking_le {ds : List Decl} (h : SpellsDecls source t ds) :
    Calls.heightAll (ds.map Checking.declCalls) ≤ 2 * t.leaves.length := by
  have decl : ∀ {t : Tree} {d : Decl}, SpellsDecl source t d →
      (Checking.declCalls d).height ≤ 2 * t.leaves.length := by
    intro t d h
    cases h with
    | var spec =>
      have h := spec.height_checking_le
      simp [Checking.declCalls]
      omega
    | func function => simpa [Checking.declCalls] using function.height_checking_le
  induction h with
  | first only => simpa using decl only
  | more _ last ih =>
    have hlast := decl last
    simp
    omega

theorem SpellsProgram.height_checking_le {p : Program} (h : SpellsProgram source t p) :
    (Checking.programCalls p).height ≤ 2 * t.leaves.length + 2 := by
  cases h with
  | decls declarations =>
    simpa [Checking.programCalls] using declarations.height_checking_le
  | empty => simp [Checking.programCalls]

end Source

end Sema
