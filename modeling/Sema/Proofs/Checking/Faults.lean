import Sema.Proofs.Checking.Programs
import Sema.Proofs.Checking.Runs

/-!
# Faults

What a check refuses, it refuses for what stands in the program, whatever else is wrong there. The
faults of a program are read off its syntax alone, in the order of the walk (`Program.faults`):
parts that are not supported, and operators that are not known, each of these after its operands. A
program has none just if it is supported (`Program.faults_eq_nil_iff`).

A check stops at the first fault and at nothing else (`ofProgram_stops_iff`). The rule that carries
this is that of one walk after another (`Walk.Stops.bind`): where the first has no fault, the second
is walked, with whatever value and after whatever violations. So no violation keeps a check from
what follows.
-/

namespace Sema

/-! ## Faults of programs -/

/-- What keeps a program from being checked: a part that is not supported in its place, or an
operator that is not known. -/
inductive CheckFault where
  | declaration
  | statement
  | expression
  | operator (op : String)

def CheckFault.error : CheckFault → CheckError
  | declaration => .unsupportedDeclaration
  | statement => .unsupportedStatement
  | expression => .unsupportedExpression
  | operator op => .unsupportedOperator op

/-- How a check reports that it stops at the first of the faults, if there is one. -/
def firstError? (faults : List CheckFault) : Option CheckError :=
  faults.head?.map CheckFault.error

@[simp] theorem firstError?_nil : firstError? [] = none := rfl

@[simp] theorem firstError?_cons (fault : CheckFault) (faults : List CheckFault) :
    firstError? (fault :: faults) = some fault.error := rfl

theorem firstError?_append (faults more : List CheckFault) :
    firstError? (faults ++ more) = (firstError? faults).or (firstError? more) := by
  cases faults <;> rfl

/-- The fault of a binary operation, if its operator is not known. -/
def operatorFaults (op : String) : List CheckFault :=
  if op ∈ BinaryOp.all.map BinaryOp.text then [] else [.operator op]

mutual

/-- The faults of an expression, in the order of the walk. -/
def Expr.faults : Expr → List CheckFault
  | .int _ _ => []
  | .float _ _ => []
  | .string _ _ => []
  | .name _ _ => []
  | .paren _ value => value.faults
  | .not _ operand => operand.faults
  | .binary _ op left right => left.faults ++ (right.faults ++ operatorFaults op)
  | .assign _ _ value => Expr.optionFaults value
  | .call _ _ args => Expr.allFaults args
  | .unsupported => [.expression]

def Expr.optionFaults : Option Expr → List CheckFault
  | none => []
  | some e => e.faults

def Expr.allFaults : List Expr → List CheckFault
  | [] => []
  | e :: es => e.faults ++ Expr.allFaults es

end

mutual

def Stmt.faults : Stmt → List CheckFault
  | .varDecl decl => Expr.optionFaults decl.value
  | .assign _ _ value => Expr.optionFaults value
  | .expr _ value => value.faults
  | .block _ body => body.faults
  | .ifThen _ condition thenBlock elseBlock =>
    condition.faults ++ (thenBlock.faults ++ Block.optionFaults elseBlock)
  | .whileLoop _ condition body => condition.faults ++ body.faults
  | .forLoop _ init condition update body =>
    Stmt.optionFaults init ++ (Expr.optionFaults condition ++
      (Stmt.optionFaults update ++ body.faults))
  | .result _ value => Expr.optionFaults value
  | .unsupported => [.statement]

def Stmt.optionFaults : Option Stmt → List CheckFault
  | none => []
  | some s => s.faults

def Block.faults : Block → List CheckFault
  | .mk _ statements => Stmt.allFaults statements

def Block.optionFaults : Option Block → List CheckFault
  | none => []
  | some b => b.faults

def Stmt.allFaults : List Stmt → List CheckFault
  | [] => []
  | s :: ss => s.faults ++ Stmt.allFaults ss

end

def Decl.faults : Decl → List CheckFault
  | .func f => f.body.faults
  | .var d => Expr.optionFaults d.value
  | .unsupported => [.declaration]

/-- The faults of a program, in the order of the walk. -/
def Program.faults (p : Program) : List CheckFault :=
  p.declarations.flatMap Decl.faults

/-! ### Programs without faults -/

theorem operatorFaults_eq_nil_iff {op : String} :
    operatorFaults op = [] ↔ ∃ known : BinaryOp, op = known.text := by
  have hmem : op ∈ BinaryOp.all.map BinaryOp.text ↔ ∃ known : BinaryOp, op = known.text := by
    rw [List.mem_map]
    constructor
    · rintro ⟨known, -, rfl⟩
      exact ⟨known, rfl⟩
    · rintro ⟨known, rfl⟩
      exact ⟨known, by cases known <;> decide, rfl⟩
  rw [← hmem, operatorFaults]
  split <;> simp_all

theorem operatorFaults_of_unknown {op : String} (h : ¬∃ known : BinaryOp, op = known.text) :
    operatorFaults op = [.operator op] := by
  rw [← operatorFaults_eq_nil_iff, operatorFaults] at h
  rw [operatorFaults]
  split <;> simp_all

mutual

theorem Expr.faults_eq_nil_iff : ∀ e : Expr, e.faults = [] ↔ e.Supported
  | .int _ _ | .float _ _ | .string _ _ | .name _ _ => by simp [Expr.faults, Expr.Supported]
  | .paren _ value => Expr.faults_eq_nil_iff value
  | .not _ operand => Expr.faults_eq_nil_iff operand
  | .binary _ op left right => by
    simp [Expr.faults, Expr.Supported, Expr.faults_eq_nil_iff left, Expr.faults_eq_nil_iff right,
      operatorFaults_eq_nil_iff]
  | .assign _ _ none => by
    simp [Expr.faults, Expr.optionFaults, Expr.Supported, Expr.OptionSupported]
  | .assign _ _ (some value) => Expr.faults_eq_nil_iff value
  | .call _ _ args => Expr.allFaults_eq_nil_iff args
  | .unsupported => by simp [Expr.faults, Expr.Supported]

theorem Expr.allFaults_eq_nil_iff : ∀ es : List Expr, Expr.allFaults es = [] ↔ Expr.AllSupported es
  | [] => by simp [Expr.allFaults, Expr.AllSupported]
  | e :: es => by
    simp [Expr.allFaults, Expr.AllSupported, Expr.faults_eq_nil_iff e, Expr.allFaults_eq_nil_iff es]

end

theorem Expr.optionFaults_eq_nil_iff (value : Option Expr) :
    Expr.optionFaults value = [] ↔ Expr.OptionSupported value := by
  cases value with
  | none => simp [Expr.optionFaults, Expr.OptionSupported]
  | some e => exact e.faults_eq_nil_iff

mutual

theorem Stmt.faults_eq_nil_iff : ∀ s : Stmt, s.faults = [] ↔ s.Supported
  | .varDecl d => Expr.optionFaults_eq_nil_iff d.value
  | .assign _ _ value => Expr.optionFaults_eq_nil_iff value
  | .expr _ value => value.faults_eq_nil_iff
  | .block _ body => Block.faults_eq_nil_iff body
  | .ifThen _ condition thenBlock elseBlock => by
    simp [Stmt.faults, Stmt.Supported, condition.faults_eq_nil_iff,
      Block.faults_eq_nil_iff thenBlock, Block.optionFaults_eq_nil_iff elseBlock]
  | .whileLoop _ condition body => by
    simp [Stmt.faults, Stmt.Supported, condition.faults_eq_nil_iff, Block.faults_eq_nil_iff body]
  | .forLoop _ init condition update body => by
    simp [Stmt.faults, Stmt.Supported, Stmt.optionFaults_eq_nil_iff init,
      Expr.optionFaults_eq_nil_iff condition, Stmt.optionFaults_eq_nil_iff update,
      Block.faults_eq_nil_iff body]
  | .result _ value => Expr.optionFaults_eq_nil_iff value
  | .unsupported => by simp [Stmt.faults, Stmt.Supported]

theorem Stmt.optionFaults_eq_nil_iff : ∀ s : Option Stmt,
    Stmt.optionFaults s = [] ↔ Stmt.OptionSupported s
  | none => by simp [Stmt.optionFaults, Stmt.OptionSupported]
  | some s => Stmt.faults_eq_nil_iff s

theorem Block.faults_eq_nil_iff : ∀ b : Block, b.faults = [] ↔ b.Supported
  | .mk _ statements => Stmt.allFaults_eq_nil_iff statements

theorem Block.optionFaults_eq_nil_iff : ∀ b : Option Block,
    Block.optionFaults b = [] ↔ Block.OptionSupported b
  | none => by simp [Block.optionFaults, Block.OptionSupported]
  | some b => Block.faults_eq_nil_iff b

theorem Stmt.allFaults_eq_nil_iff : ∀ ss : List Stmt, Stmt.allFaults ss = [] ↔ Stmt.AllSupported ss
  | [] => by simp [Stmt.allFaults, Stmt.AllSupported]
  | s :: ss => by
    simp [Stmt.allFaults, Stmt.AllSupported, Stmt.faults_eq_nil_iff s, Stmt.allFaults_eq_nil_iff ss]

end

theorem Decl.faults_eq_nil_iff : ∀ d : Decl, d.faults = [] ↔ d.Supported
  | .func f => f.body.faults_eq_nil_iff
  | .var d => Expr.optionFaults_eq_nil_iff d.value
  | .unsupported => by simp [Decl.faults, Decl.Supported]

/-- A program is supported if it has no fault. -/
theorem Program.faults_eq_nil_iff (p : Program) : p.faults = [] ↔ p.Supported := by
  simp [Program.faults, Program.Supported, Decl.faults_eq_nil_iff]

/-! ## Walks that stop -/

namespace Walk

variable {α β : Type} {env : Env} {es es' : List CheckFault}

/-- Wherever it starts, the walk stops at the first of the faults, and gives a value if there is
none. -/
def Stops (w : Walk α) (env : Env) (es : List CheckFault) : Prop :=
  ∀ s e, (w env s).value = .error e ↔ firstError? es = some e

namespace Stops

theorem eq_nil {w : Walk α} (hw : w.Stops env es) {s : ScopeStack} {a : α}
    (h : (w env s).value = .ok a) : es = [] := by
  cases es with
  | nil => rfl
  | cons fault es =>
    have herror := (hw s fault.error).mpr rfl
    rw [h] at herror
    cases herror

theorem ofCompletes {w : Walk α} (hw : w.Completes) : w.Stops env [] := by
  intro s e
  obtain ⟨fs, a, s', h⟩ := hw env s
  rw [h]
  simp

theorem fail (fault : CheckFault) : (fail fault.error : Walk α).Stops env [fault] :=
  fun s e => by simp [Walk.fail]

/-- After a walk without a fault the next one is made, whatever the first has found. -/
theorem bind {w : Walk α} {f : α → Walk β} (hw : w.Stops env es) (hf : ∀ a, (f a).Stops env es') :
    (w >>= f).Stops env (es ++ es') := by
  intro s e
  cases h : (w env s).value with
  | error e' =>
    have hhead : firstError? es = some e' := (hw s e').mp h
    rw [bind_apply_of_error h, firstError?_append, hhead]
    simp
  | ok a =>
    rw [bind_apply_of_ok h, hw.eq_nil h]
    exact hf a _ e

theorem andThen {w : Walk α} {f : α → Walk β} (hw : w.Stops env es) (hf : ∀ a, (f a).Completes) :
    (w >>= f).Stops env es := by
  have hbind := hw.bind fun a => ofCompletes (hf a)
  rwa [List.append_nil] at hbind

theorem after {w : Walk α} {f : α → Walk β} (hw : w.Completes) (hf : ∀ a, (f a).Stops env es) :
    (w >>= f).Stops env es :=
  (ofCompletes hw).bind hf

/-- A frame of its own does not change where a walk stops, as the frame that is closed is the one
that was opened. -/
theorem enclosed {w : Walk Unit} (hframed : w.Framed) (hw : w.Stops env es) :
    (enclosed w).Stops env es := by
  intro s e
  cases h : (w env s.push).value with
  | error e' =>
    have hhead : firstError? es = some e' := (hw s.push e').mp h
    have hopen : (push env s).value = .ok () := rfl
    have hrest : ((w >>= fun _ => pop) env s.push).value = .error e' := by
      rw [bind_apply_of_error h]
    have hvalue : ((Walk.enclosed w) env s).value = .error e' := by
      unfold Walk.enclosed
      rw [bind_apply_of_ok hopen]
      exact hrest
    rw [hvalue, hhead]
    simp
  | ok u =>
    have hgives : w.Gives env s.push (w env s.push).findings () (w env s.push).scopes := by
      rw [Gives, ← h]
    have hclosed : (Walk.enclosed w).Gives env s (w env s.push).findings () s :=
      (gives_enclosed_iff hframed).mpr ⟨⟨_, hgives⟩, rfl⟩
    rw [hclosed, hw.eq_nil h]
    simp

end Stops

end Walk

/-! ## Expressions and statements -/

namespace Checking

open Walk
open Typing (ofText?_eq_some_iff)

variable {env : Env}

theorem checkAssign_stops (target : String) (loc : Location) {value : Option (Walk Ty)}
    {es : List CheckFault} (hnone : value = none → es = [])
    (hsome : ∀ w, value = some w → w.Stops env es) :
    (checkAssign target loc value).Stops env es := by
  refine .after (closed_completes.resolve target) fun symbol => ?_
  cases symbol with
  | none =>
    refine .after (completes_find _) fun _ => ?_
    cases value with
    | none => exact hnone rfl ▸ .ofCompletes (closed_completes.pure _)
    | some w => exact (hsome w rfl).andThen fun _ => closed_completes.pure _
  | some symbol =>
    refine .after (completes_reportIf _ _ _) fun _ => ?_
    cases value with
    | none => exact hnone rfl ▸ .ofCompletes (closed_completes.pure _)
    | some w =>
      exact (hsome w rfl).andThen fun _ =>
        (completes_reportIf _ _ _).bind fun _ => closed_completes.pure _

theorem binary_stops (op : String) (left right : Ty) :
    (match BinaryOp.ofText? op with
      | some known => (return binaryType known left right : Walk Ty)
      | none => Walk.fail (.unsupportedOperator op)).Stops env (operatorFaults op) := by
  split
  · next known hop =>
    rw [operatorFaults_eq_nil_iff.mpr ⟨known, ofText?_eq_some_iff.mp hop⟩]
    exact .ofCompletes (closed_completes.pure _)
  · next hop =>
    rw [operatorFaults_of_unknown]
    · exact .fail (.operator op)
    · rintro ⟨known, htext⟩
      rw [ofText?_eq_some_iff.mpr htext] at hop
      cases hop

mutual

theorem checkExpr_stops : ∀ e : Expr, (checkExpr e).Stops env e.faults
  | .int _ _ | .float _ _ | .string _ _ => .ofCompletes (closed_completes.pure _)
  | .name loc ident =>
    .ofCompletes (closed_checkExpr closed_completes (.name loc ident) (.inl trivial))
  | .paren _ value => checkExpr_stops value
  | .not _ operand => (checkExpr_stops operand).andThen fun _ => closed_completes.pure _
  | .binary _ op left right =>
    (checkExpr_stops left).bind fun _ => (checkExpr_stops right).bind fun _ => binary_stops op _ _
  | .assign loc target none => checkAssign_stops target loc (fun _ => rfl) nofun
  | .assign loc target (some value) =>
    checkAssign_stops target loc nofun fun _ hw => Option.some.inj hw ▸ checkExpr_stops value
  | .call loc func args =>
    .after (closed_checkCallee closed_completes func loc) fun _ =>
      (checkExprs_stops args).andThen fun _ => closed_callType closed_completes _ trivial _ _
  | .unsupported => .fail .expression

theorem checkExprs_stops : ∀ es : List Expr, (checkExprs es).Stops env (Expr.allFaults es)
  | [] => .ofCompletes (closed_completes.pure _)
  | e :: es =>
    (checkExpr_stops e).bind fun _ =>
      (checkExprs_stops es).andThen fun _ => closed_completes.pure _

end

theorem completes_recordControl (kind : ControlKind) (loc : Location) :
    (recordControl kind loc).Completes :=
  completes_find _

theorem checkVarDecl_stops (extent : Extent) (d : VarDecl) :
    (checkVarDecl extent d).Stops env (Expr.optionFaults d.value) := by
  have hbind : ∀ symbol : Symbol, Walk.Completes (Walk.declare symbol >>= fun fresh =>
      if fresh then Walk.find (extent.found symbol)
      else Walk.report (extent.duplicate d.name) d.loc) := by
    intro symbol
    refine (completes_declare symbol).bind fun fresh => ?_
    cases fresh <;> exact completes_find _
  refine .after (closed_completes.resolveType d.type d.loc) fun τ => ?_
  cases d.value with
  | none => exact .ofCompletes (hbind _)
  | some e =>
    exact (checkExpr_stops e).andThen fun _ => (completes_reportIf _ _ _).bind fun _ => hbind _

theorem checkCondition?_stops (condition : Option Expr) :
    (checkCondition? condition).Stops env (Expr.optionFaults condition) := by
  cases condition with
  | none => exact .ofCompletes (closed_completes.pure ())
  | some e => exact (checkExpr_stops e).andThen fun _ => closed_completes.pure ()

theorem checkReturn_stops {caller : Caller} (hcaller : env.caller = some caller) (loc : Location)
    (value : Option Expr) : (checkReturn loc value).Stops env (Expr.optionFaults value) := by
  have hwalk : ∀ caller : Caller, Stops (do
      Walk.find .returned
      let actual ← match value with
        | none => pure Ty.void
        | some e => checkExpr e
      Walk.reportIf (!caller.type.accepts actual) (.badReturn caller.name caller.type actual) loc)
      env (Expr.optionFaults value) := by
    intro caller
    refine .after (completes_find _) fun _ => ?_
    cases value with
    | none => exact .ofCompletes (completes_reportIf _ _ _)
    | some e => exact (checkExpr_stops e).andThen fun _ => completes_reportIf _ _ _
  intro s e
  have hread : (Walk.caller env s).value = .ok (some caller) := congrArg Except.ok hcaller
  rw [checkReturn, bind_apply_of_ok hread]
  exact hwalk caller s e

mutual

theorem checkStmt_stops {caller : Caller} (hcaller : env.caller = some caller) :
    ∀ st : Stmt, (checkStmt st).Stops env st.faults
  | .varDecl d => checkVarDecl_stops .inFunction d
  | .assign loc target value =>
    (checkExpr_stops (.assign loc target value)).andThen fun _ => closed_completes.pure ()
  | .expr _ value => (checkExpr_stops value).andThen fun _ => closed_completes.pure ()
  | .block _ body => checkBlock_stops hcaller body
  | .ifThen loc condition thenBlock elseBlock =>
    .after (completes_recordControl .ifThen loc) fun _ =>
      (checkExpr_stops condition).bind fun _ =>
        (checkBlock_stops hcaller thenBlock).bind fun _ => checkBlock?_stops hcaller elseBlock
  | .whileLoop loc condition body =>
    .after (completes_recordControl .whileLoop loc) fun _ =>
      (checkExpr_stops condition).bind fun _ => checkBlock_stops hcaller body
  | .forLoop loc init condition update body => by
    rw [checkStmt_forLoop]
    refine .after (completes_recordControl .forLoop loc) fun _ =>
      .enclosed (framed_forLoop init condition update body) ?_
    exact (checkStmt?_stops hcaller init).bind fun _ =>
      (checkCondition?_stops condition).bind fun _ =>
        (checkStmt?_stops hcaller update).bind fun _ => checkBlock_stops hcaller body
  | .result loc value => checkReturn_stops hcaller loc value
  | .unsupported => .fail .statement

theorem checkStmt?_stops {caller : Caller} (hcaller : env.caller = some caller) :
    ∀ st : Option Stmt, (checkStmt? st).Stops env (Stmt.optionFaults st)
  | none => .ofCompletes (closed_completes.pure ())
  | some st => checkStmt_stops hcaller st

theorem checkBlock_stops {caller : Caller} (hcaller : env.caller = some caller) :
    ∀ b : Block, (checkBlock b).Stops env b.faults
  | .mk _ statements => by
    rw [checkBlock_eq]
    exact .enclosed (framed_checkStmts statements) (checkStmts_stops hcaller statements)

theorem checkBlock?_stops {caller : Caller} (hcaller : env.caller = some caller) :
    ∀ b : Option Block, (checkBlock? b).Stops env (Block.optionFaults b)
  | none => .ofCompletes (closed_completes.pure ())
  | some b => checkBlock_stops hcaller b

theorem checkStmts_stops {caller : Caller} (hcaller : env.caller = some caller) :
    ∀ ss : List Stmt, (checkStmts ss).Stops env (Stmt.allFaults ss)
  | [] => .ofCompletes (closed_completes.pure ())
  | st :: ss => (checkStmt_stops hcaller st).bind fun _ => checkStmts_stops hcaller ss

end

theorem checkBody_stops {caller : Caller} (hcaller : env.caller = some caller) (f : FunctionDef) :
    (checkBody f).Stops env f.body.faults := by
  have hbody : f.body.faults = Stmt.allFaults f.body.statements := by cases f.body; rfl
  rw [hbody]
  exact .after (fun _ s => ⟨[], (), s.push, rfl⟩) fun _ =>
    .after (completes_bindParams f.name f.params) fun _ => checkStmts_stops hcaller _

end Checking

/-! ## Checks that stop -/

theorem FunctionTable.keys_eq_signatures (t : FunctionTable) :
    t.keys = t.signatures.map Prod.fst := by
  simp [keys, signatures, Function.comp_def]

namespace CheckM

variable {α β : Type} {known : List String} {es es' : List CheckFault}

/-- From a checker with these functions, the step stops at the first of the faults, and succeeds if
there is none. -/
def Stops (known : List String) (m : CheckM α) (es : List CheckFault) : Prop :=
  ∀ c : Checker, known ⊆ c.functions.keys → ∀ e, (m.run c).1 = .error e ↔ firstError? es = some e

theorem run_bind_of_error {m : CheckM α} {c : Checker} {e : CheckError}
    (h : (m.run c).1 = .error e) (f : α → CheckM β) : ((m >>= f).run c).1 = .error e := by
  rw [run_bind]
  cases hr : m.run c with
  | mk r c₁ =>
    rw [hr] at h
    rw [show r = .error e from h]

namespace Stops

theorem ofCompletes {m : CheckM α} (hm : m.Completes) : m.Stops known [] := by
  intro c _ e
  obtain ⟨a, c', h⟩ := hm c
  rw [h]
  simp

theorem walk {w : Walk α} (hw : ∀ env, w.Stops env es) : (walk w).Stops known es :=
  fun c _ => hw c.env c.scopes

/-- After a step without a fault the next one is made. -/
theorem bind {m : CheckM α} {f : α → CheckM β} (hm : m.Stops known es) (hkeeps : m.KeepsSignatures)
    (hf : ∀ a, (f a).Stops known es') : (m >>= f).Stops known (es ++ es') := by
  intro c hc e
  rw [run_bind]
  cases h : m.run c with
  | mk r c₁ =>
    have hfirst := hm c hc
    rw [h] at hfirst
    cases r with
    | error e' =>
      have hhead : firstError? es = some e' := (hfirst e').mp rfl
      rw [firstError?_append, hhead]
      simp
    | ok a =>
      have hnil : es = [] := by
        cases es with
        | nil => rfl
        | cons fault es => cases (hfirst fault.error).mpr rfl
      have hkeys : c₁.functions.keys = c.functions.keys := by
        have hsignatures := hkeeps c
        rw [h] at hsignatures
        rw [FunctionTable.keys_eq_signatures, hsignatures, ← FunctionTable.keys_eq_signatures]
      rw [hnil]
      exact hf a c₁ (hkeys ▸ hc) e

end Stops

end CheckM

namespace Checking

open CheckM (walk setCurrent)

variable {known : List String}

theorem closing_stops (f : FunctionDef) {c : Checker} {symbol : FunctionSymbol}
    (hc : c.function? = some symbol) (e : CheckError) :
    ((closing f).run c).1 = .error e ↔ firstError? f.body.faults = some e := by
  have hcaller : c.env.caller = some symbol.caller := congrArg (Option.map _) hc
  have hstops := checkBody_stops hcaller f
  cases h : (checkBody f c.env c.scopes).value with
  | error e' =>
    have hhead : firstError? f.body.faults = some e' := (hstops c.scopes e').mp h
    rw [closing, CheckM.run_bind_of_error (m := walk (checkBody f)) h, hhead]
    simp
  | ok u =>
    have hgives : (checkBody f).Gives c.env c.scopes (checkBody f c.env c.scopes).findings ()
        (checkBody f c.env c.scopes).scopes := by
      rw [Walk.Gives, ← h]
    obtain ⟨c', hrun, -⟩ := run_closing hgives
    rw [hrun, hstops.eq_nil h]
    simp

theorem find?_of_mem_keys {t : FunctionTable} {key : String} (h : key ∈ t.keys) :
    ∃ f, t.find? key = some f :=
  Option.isSome_iff_exists.mp (FunctionTable.contains_iff_mem_keys.mpr h)

/-- The check of a function stops at the first fault of its body, whether or not the definition is
the registered one. -/
theorem checkFunction_stops (f : FunctionDef) {registered : Bool}
    (hf : registered = true → f.name ∈ known) :
    (checkFunction f registered).Stops known f.body.faults := by
  intro c hc e
  cases registered with
  | true =>
    obtain ⟨symbol, hsymbol⟩ := find?_of_mem_keys (hc (hf rfl))
    exact closing_stops f (c := { c with current := .entry f.name }) hsymbol e
  | false =>
    obtain ⟨type, c₁, htype⟩ :=
      CheckM.Completes.walk (Walk.closed_completes.resolveType f.returnType f.loc) c
    have hrun : (checkFunction f false).run c =
        (closing f).run { c₁ with current := .detached (f.symbol type []) } := by
      rw [checkFunction, if_neg Bool.false_ne_true, CheckM.run_bind, htype]
      rfl
    rw [hrun]
    exact closing_stops f rfl e

/-- The check of declarations stops at their first fault. The names that are not taken are those
under which the first definitions are registered. -/
theorem checkDecls_stops {taken : List String} {ds : List Decl}
    (hds : ∀ f ∈ ds.filterMap Decl.function?, f.name ∉ taken → f.name ∈ known) :
    (checkDecls taken ds).Stops known (ds.flatMap Decl.faults) := by
  induction ds generalizing taken with
  | nil => exact .ofCompletes fun c => ⟨(), c, rfl⟩
  | cons d ds ih =>
    cases d with
    | func f =>
      have hf : (!taken.contains f.name) = true → f.name ∈ known := fun hfree =>
        hds f List.mem_cons_self (by simpa using hfree)
      refine .bind (checkFunction_stops f hf) (keepsSignatures_checkFunction f _) fun _ =>
        ih fun g hg hfree => hds g (List.mem_cons_of_mem f hg) fun htaken => ?_
      exact hfree (List.mem_cons_of_mem f.name htaken)
    | var d =>
      exact .bind (.walk fun env => checkVarDecl_stops .global d) (.walk _) fun _ => ih hds
    | unsupported =>
      intro c _ e
      show Except.error CheckError.unsupportedDeclaration = .error e ↔
        some CheckError.unsupportedDeclaration = some e
      rw [Except.error.injEq, Option.some.injEq]

theorem checkProgram_stops (p : Program) (c : Checker) (e : CheckError) :
    ((checkProgram p).run c).1 = .error e ↔ firstError? p.faults = some e := by
  obtain ⟨_, c₁, hregister⟩ := completes_registerFunctions p.functions c
  have hfunctions := congrArg Checker.functions (registerFunctions_gives_iff.mp hregister)
  have hknown : p.functions.map (·.name) ⊆ c₁.functions.keys := by
    intro name hname
    obtain ⟨f, hf, rfl⟩ := List.mem_map.mp hname
    rw [hfunctions, FunctionTable.keys, List.map_append, List.map_map, List.mem_append]
    by_cases htaken : f.name ∈ c.functions.keys
    · exact .inl htaken
    · exact .inr (key_mem_map_firsts hf htaken)
  have hdecls : (checkDecls c.functions.keys p.declarations).Stops (p.functions.map (·.name))
      p.faults :=
    checkDecls_stops fun f hf _ => List.mem_map_of_mem hf
  have hrun : (checkProgram p).run c =
      (do checkDecls c.functions.keys p.declarations; checkMain : CheckM Unit).run c₁ := by
    rw [checkProgram, CheckM.run_get_bind, CheckM.run_bind, hregister]
  rw [hrun]
  have hmain : checkMain.Completes := fun c => ⟨(), _, rfl⟩
  have hall := hdecls.bind (keepsSignatures_checkDecls _ _) fun _ => .ofCompletes hmain
  rw [List.append_nil] at hall
  exact hall c₁ hknown e

end Checking

/-- A check stops just if something in the program is not supported, and then at the first such
place in the order of the walk, whatever it has reported before and from whatever state it
starts. -/
theorem ofProgram_stops_iff (p : Program) :
    (∀ e, Checked.ofProgram p = .error e ↔ firstError? p.faults = some e) ∧
      ((∃ checked, Checked.ofProgram p = .ok checked) ↔ p.Supported) ∧
      ∀ c e, ((Checking.checkProgram p).run c).1 = .error e ↔ firstError? p.faults = some e := by
  have hstops : ∀ e, Checked.ofProgram p = .error e ↔ firstError? p.faults = some e := by
    intro e
    rw [← Checking.checkProgram_stops p Checker.empty e, Checked.ofProgram]
    rcases (Checking.checkProgram p).run Checker.empty with ⟨_ | _, c⟩ <;> simp
  refine ⟨hstops, ?_, Checking.checkProgram_stops p⟩
  rw [← p.faults_eq_nil_iff]
  constructor
  · rintro ⟨checked, h⟩
    cases hfaults : p.faults with
    | nil => rfl
    | cons fault faults =>
      have herror := (hstops fault.error).mpr (by rw [hfaults]; rfl)
      rw [h] at herror
      cases herror
  · intro hfaults
    cases h : Checked.ofProgram p with
    | ok checked => exact ⟨checked, rfl⟩
    | error e =>
      have hhead := (hstops e).mp h
      rw [hfaults] at hhead
      cases hhead

end Sema
