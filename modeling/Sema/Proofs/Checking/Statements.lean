import Sema.Checking.Statement
import Sema.Proofs.Checking.Expressions

/-!
# The walk over statements follows the typing rules

A statement changes the innermost frame only, whatever it contains (`framed_checkStmt`). Inside a
function with the result `ρ` its walk passes just if the statement may stand in the context of the
open frames (`checkStmt_passes_iff`), and then the context afterwards is the one of the rules.
-/

namespace Sema

open Typing

namespace Checking

open Walk

variable {env : Env} {s s' : ScopeStack} {fs : List FunctionDef}

/-! ## Blocks and loops as enclosed walks -/

theorem checkBlock_eq (b : Block) : checkBlock b = enclosed (checkStmts b.statements) := by
  cases b
  rw [checkBlock]
  rfl

theorem checkStmt_forLoop (loc : Location) (init : Option Stmt) (condition : Option Expr)
    (update : Option Stmt) (body : Block) :
    checkStmt (.forLoop loc init condition update body) =
      (do
        recordControl .forLoop loc
        enclosed (do
          checkStmt? init
          checkCondition? condition
          checkStmt? update
          checkBlock body)) := by
  rw [checkStmt]
  simp only [enclosed, bind_assoc]

/-! ## Properties of all walks over statements -/

section closed

variable {L : Location → Prop} {P : ∀ {α : Type}, Walk α → Prop}

theorem closed_checkVarDecl (hP : ClosedAt L P) (hdeclare : ∀ symbol, P (Walk.declare symbol))
    (extent : Extent) (hfound : ∀ symbol, P (Walk.find (extent.found symbol))) (d : VarDecl)
    (h : Expr.OptionSupported d.value ∨ (∀ {α : Type} err, P (fail err : Walk α)))
    (hL : (Node.var d).Everywhere L := by simp) : P (checkVarDecl extent d) := by
  have hloc : L d.loc := hL.here
  have hdeclare : ∀ symbol : Symbol, P (Walk.declare symbol >>= fun fresh =>
      if fresh then Walk.find (extent.found symbol)
      else Walk.report (extent.duplicate d.name) d.loc) := by
    intro symbol
    refine hP.bind (hdeclare symbol) fun fresh => ?_
    cases fresh with
    | true => exact hfound symbol
    | false => exact hP.report _ _ hloc (by cases extent <;> trivial)
  refine hP.bind (hP.resolveType d.type d.loc hloc) fun τ => ?_
  cases hv : d.value with
  | none => exact hdeclare _
  | some e =>
    rw [hv] at h
    have he : (Node.expr e).Everywhere L := hL.child (by simp [Node.children, hv])
    exact hP.bind (closed_checkExpr hP e h he) fun _ =>
      hP.bind (hP.reportIf _ _ _ hloc) fun _ => hdeclare _

theorem closed_checkCondition? (hP : ClosedInFramesAt L P) (condition : Option Expr)
    (h : Expr.OptionSupported condition ∨ (∀ {α : Type} err, P (fail err : Walk α)))
    (hL : ∀ e ∈ condition, (Node.expr e).Everywhere L) : P (checkCondition? condition) := by
  cases condition with
  | none => exact hP.pure ()
  | some e => exact hP.bind (closed_checkExpr hP.toClosedAt e h (hL e rfl)) fun _ => hP.pure _

theorem closed_checkReturn (hP : ClosedInFramesAt L P) {loc : Location} (hloc : L loc)
    (value : Option Expr)
    (h : Expr.OptionSupported value ∨ (∀ {α : Type} err, P (fail err : Walk α)))
    (hL : ∀ e ∈ value, (Node.expr e).Everywhere L) : P (checkReturn loc value) := by
  refine hP.bind hP.caller fun caller => ?_
  cases caller with
  | none => exact hP.pure ()
  | some caller =>
    refine hP.bind (hP.find _) fun _ => ?_
    cases value with
    | none => exact hP.bind (hP.pure _) fun _ => hP.reportIf _ _ _ hloc
    | some e =>
      exact hP.bind (closed_checkExpr hP.toClosedAt e h (hL e rfl)) fun _ =>
        hP.reportIf _ _ _ hloc

mutual

/-- A property of the elementary walks holds of the walk over a statement, if the statement is
supported or the property holds of failure too, and if it may find things wherever the parts of the
statement stand. -/
theorem closed_checkStmt (hP : ClosedInFramesAt L P) :
    ∀ st : Stmt, st.Supported ∨ (∀ {α : Type} err, P (fail err : Walk α)) →
      ∀ (_ : st.node.Everywhere L := by simp), P (checkStmt st)
  | .varDecl d, h, hL =>
    closed_checkVarDecl hP.toClosedAt hP.declare _ (fun _ => hP.find _) d h hL
  | .assign loc target none, _, hL =>
    hP.bind (closed_checkAssign hP.toClosedAt target hL.here fun _ hw => nomatch hw) fun _ =>
      hP.pure _
  | .assign loc target (some value), h, hL =>
    hP.bind (closed_checkAssign hP.toClosedAt target hL.here fun _ hw =>
      Option.some.inj hw ▸ closed_checkExpr hP.toClosedAt value h (hL.child (.head _))) fun _ =>
        hP.pure _
  | .expr _ value, h, hL =>
    hP.bind (closed_checkExpr hP.toClosedAt value h (hL.child (.head _))) fun _ => hP.pure _
  | .block _ body, h, hL => closed_checkBlock hP body h (hL.child (.head _))
  | .ifThen loc condition thenBlock elseBlock, h, hL =>
    hP.bind (hP.find _ ⟨loc, hL.here, rfl, rfl⟩) fun _ =>
      hP.bind (closed_checkExpr hP.toClosedAt condition (h.imp_left (·.1))
        (hL.child (.head _))) fun _ =>
        hP.bind (closed_checkBlock hP thenBlock (h.imp_left (·.2.1))
          (hL.child (.tail _ (.head _)))) fun _ =>
          closed_checkBlock? hP elseBlock (h.imp_left (·.2.2)) fun b hb =>
            hL.child (.tail _ (.tail _ (Node.mem_of_mem_option _ hb)))
  | .whileLoop loc condition body, h, hL =>
    hP.bind (hP.find _ ⟨loc, hL.here, rfl, rfl⟩) fun _ =>
      hP.bind (closed_checkExpr hP.toClosedAt condition (h.imp_left (·.1))
        (hL.child (.head _))) fun _ =>
        closed_checkBlock hP body (h.imp_left (·.2)) (hL.child (.tail _ (.head _)))
  | .forLoop loc init condition update body, h, hL => by
    have hinit : ∀ s ∈ init, s.node.Everywhere L :=
      fun _ hs => hL.child (Stmt.init_mem_children hs)
    have hcondition : ∀ e ∈ condition, (Node.expr e).Everywhere L :=
      fun _ he => hL.child (Stmt.condition_mem_children he)
    have hupdate : ∀ s ∈ update, s.node.Everywhere L :=
      fun _ hs => hL.child (Stmt.update_mem_children hs)
    have hbody : (Node.block body).Everywhere L := hL.child Stmt.body_mem_children
    rw [checkStmt_forLoop]
    refine hP.bind (hP.find _ ⟨loc, hL.here, rfl, rfl⟩) fun _ => hP.enclosed ?_
    exact hP.bind (closed_checkStmt? hP init (h.imp_left (·.1)) hinit) fun _ =>
      hP.bind (closed_checkCondition? hP condition (h.imp_left (·.2.1)) hcondition) fun _ =>
        hP.bind (closed_checkStmt? hP update (h.imp_left (·.2.2.1)) hupdate) fun _ =>
          closed_checkBlock hP body (h.imp_left (·.2.2.2)) hbody
  | .result loc value, h, hL =>
    closed_checkReturn hP hL.here value h fun _ he =>
      hL.child (Node.mem_of_mem_option _ he)
  | .unsupported, h, _ => h.elim False.elim fun hfail => hfail _

theorem closed_checkStmt? (hP : ClosedInFramesAt L P) :
    ∀ st : Option Stmt, Stmt.OptionSupported st ∨ (∀ {α : Type} err, P (fail err : Walk α)) →
      ∀ (_ : ∀ s ∈ st, s.node.Everywhere L := by simp), P (checkStmt? st)
  | none, _, _ => hP.pure _
  | some st, h, hL => closed_checkStmt hP st h (hL st rfl)

theorem closed_checkBlock (hP : ClosedInFramesAt L P) :
    ∀ b : Block, b.Supported ∨ (∀ {α : Type} err, P (fail err : Walk α)) →
      ∀ (_ : (Node.block b).Everywhere L := by simp), P (checkBlock b)
  | .mk _ statements, h, hL => by
    rw [checkBlock_eq]
    exact hP.enclosed (closed_checkStmts hP statements h fun _ hs =>
      hL.child (List.mem_map_of_mem hs))

theorem closed_checkBlock? (hP : ClosedInFramesAt L P) :
    ∀ b : Option Block, Block.OptionSupported b ∨ (∀ {α : Type} err, P (fail err : Walk α)) →
      (∀ block ∈ b, (Node.block block).Everywhere L) → P (checkBlock? b)
  | none, _, _ => hP.pure _
  | some b, h, hL => closed_checkBlock hP b h (hL b rfl)

theorem closed_checkStmts (hP : ClosedInFramesAt L P) :
    ∀ ss : List Stmt, Stmt.AllSupported ss ∨ (∀ {α : Type} err, P (fail err : Walk α)) →
      ∀ (_ : ∀ s ∈ ss, s.node.Everywhere L := by simp), P (checkStmts ss)
  | [], _, _ => hP.pure _
  | st :: ss, h, hL =>
    hP.bind (closed_checkStmt hP st (h.imp_left (·.1)) (hL st (.head _))) fun _ =>
      closed_checkStmts hP ss (h.imp_left (·.2)) fun s hs => hL s (.tail _ hs)

end

end closed

/-! ## Frames -/

theorem framed_fail {α : Type} (err : CheckError) : (fail err : Walk α).Framed :=
  (still_fail err).framed

theorem framed_checkVarDecl (extent : Extent) (d : VarDecl) : (checkVarDecl extent d).Framed :=
  closed_checkVarDecl closed_framed framed_declare extent (fun _ => (still_find _).framed) d
    (.inr framed_fail)

/-- A statement changes no frame but the innermost. -/
theorem framed_checkStmt (st : Stmt) : (checkStmt st).Framed :=
  closed_checkStmt closedInFrames_framed st (.inr framed_fail)

theorem framed_checkStmt? (st : Option Stmt) : (checkStmt? st).Framed :=
  closed_checkStmt? closedInFrames_framed st (.inr framed_fail)

theorem framed_checkStmts (ss : List Stmt) : (checkStmts ss).Framed :=
  closed_checkStmts closedInFrames_framed ss (.inr framed_fail)

theorem still_checkBlock (b : Block) : (checkBlock b).Still := by
  rw [checkBlock_eq]
  exact (framed_checkStmts b.statements).still_enclosed

theorem still_checkBlock? (b : Option Block) : (checkBlock? b).Still := by
  cases b with
  | none => exact still_read
  | some b => exact still_checkBlock b

theorem still_checkCondition? (condition : Option Expr) : (checkCondition? condition).Still := by
  cases condition with
  | none => exact still_read
  | some e => exact (still_checkExpr e).bind fun _ => still_read

theorem framed_forLoop (init : Option Stmt) (condition : Option Expr) (update : Option Stmt)
    (body : Block) :
    Framed (do
      checkStmt? init
      checkCondition? condition
      checkStmt? update
      checkBlock body) :=
  (framed_checkStmt? init).bind fun _ => (still_checkCondition? condition).framed.bind fun _ =>
    (framed_checkStmt? update).bind fun _ => (still_checkBlock body).framed

/-! ## Declarations of variables -/

theorem declare_found_passes_iff {extent : Extent} {symbol : Symbol} {v : Violation}
    {loc : Location} {u : Unit} :
    (Walk.declare symbol >>= fun fresh =>
      if fresh then Walk.find (extent.found symbol) else Walk.report v loc).Passes env s u s' ↔
      s.declare symbol.name symbol = .ok s' := by
  rw [passes_bind]
  constructor
  · rintro ⟨fresh, s₁, hd, h⟩
    cases fresh with
    | false => exact absurd h not_passes_report
    | true =>
      obtain ⟨-, rfl⟩ := passes_find.mp h
      exact passes_declare_fresh.mp hd
  · intro h
    refine ⟨true, s', passes_declare_fresh.mpr h, passes_find.mpr ⟨?_, rfl⟩⟩
    cases extent <;> rfl

theorem checkVarDecl_passes_iff (henv : env.Serves fs) (hs : s.Distinct) {extent : Extent}
    {d : VarDecl} {u : Unit} :
    (checkVarDecl extent d).Passes env s u s' ↔
      ∃ τ, Ty.resolve d.type = .ok τ ∧
        (∀ e, d.value = some e → ∃ σ, HasType fs s.context e σ ∧ τ.accepts σ = true) ∧
        s.declare d.name (declaredSymbol d τ) = .ok s' := by
  unfold checkVarDecl
  rw [passes_resolveType_bind]
  refine exists_congr fun τ => and_congr_right fun _ => ?_
  cases hv : d.value with
  | none =>
    refine declare_found_passes_iff.trans ?_
    simp only [reduceCtorEq, false_implies, implies_true, true_and]
    rfl
  | some e =>
    rw [passes_bind]
    simp only [checkExpr_passes_iff henv hs, passes_reportIf_bind, Bool.not_eq_false',
      Option.some.injEq, forall_eq', declare_found_passes_iff]
    constructor
    · rintro ⟨σ, _, ⟨he, rfl⟩, hσ, hd⟩
      exact ⟨⟨σ, he, hσ⟩, hd⟩
    · rintro ⟨⟨σ, he, hσ⟩, hd⟩
      exact ⟨σ, s, ⟨he, rfl⟩, hσ, hd⟩

theorem declares_iff (henv : env.Serves fs) (hs : s.Distinct) (extent : Extent) {d : VarDecl}
    {Γ' : Context} :
    Declares fs s.context d Γ' ↔
      ∃ s', (checkVarDecl extent d).Passes env s () s' ∧ s'.context = Γ' := by
  simp only [checkVarDecl_passes_iff henv hs]
  constructor
  · intro h
    generalize hΓ : s.context = Γ at h
    cases h with
    | @mk F Γ _ τ named initializer fresh =>
      obtain ⟨s', hd, hs'⟩ := ScopeStack.exists_declare hΓ fresh (declaredSymbol d τ)
      refine ⟨s', ⟨τ, names_iff.mp named, fun e he => ?_, hd⟩, hs'⟩
      obtain ⟨σ, hσ, fits⟩ := initializer e he
      exact ⟨σ, hΓ ▸ hσ, fits_iff.mp fits⟩
  · rintro ⟨s', ⟨τ, named, initializer, hd⟩, rfl⟩
    obtain ⟨F, Γ, hΓ, fresh, hs'⟩ := ScopeStack.context_declare hd
    rw [hΓ, hs']
    refine .mk (names_iff.mpr named) (fun e he => ?_) fresh
    obtain ⟨σ, hσ, fits⟩ := initializer e he
    exact ⟨σ, hΓ ▸ hσ, fits_iff.mpr fits⟩

/-! ## Statements -/

theorem checkCondition?_passes_iff (henv : env.Serves fs) (hs : s.Distinct)
    {condition : Option Expr} {u : Unit} :
    (checkCondition? condition).Passes env s u s' ↔
      ConditionOk fs s.context condition ∧ s = s' := by
  cases condition with
  | none => simp [checkCondition?, passes_pure, ConditionOk]
  | some e =>
    rw [checkCondition?, passes_discard]
    simp only [checkExpr_passes_iff henv hs, ConditionOk, Option.some.injEq, forall_eq',
      exists_and_right]

theorem checkReturn_passes_iff {caller : Caller} (hcaller : env.caller = some caller)
    {loc : Location} {value : Option Expr} {u : Unit} :
    (checkReturn loc value).Passes env s u s' ↔
      match value with
      | none => caller.type.accepts .void = true ∧ s = s'
      | some e => ∃ σ, (checkExpr e).Passes env s σ s' ∧ caller.type.accepts σ = true := by
  rw [checkReturn, passes_caller_bind, hcaller]
  simp only [passes_find_bind, Finding.diagnostic?, true_and]
  cases value with
  | none => simp only [pure_bind, passes_reportIf, Bool.not_eq_false']
  | some e =>
    rw [passes_bind]
    simp only [passes_reportIf, Bool.not_eq_false']
    constructor
    · rintro ⟨σ, _, he, hσ, rfl⟩
      exact ⟨σ, he, hσ⟩
    · rintro ⟨σ, he, hσ⟩
      exact ⟨σ, s', he, hσ, rfl⟩

theorem exists_passes_still_iff {α : Type} {w : Walk α} (hw : w.Still) {a : α} {Γ' : Context} :
    (∃ s', w.Passes env s a s' ∧ s'.context = Γ') ↔ w.Passes env s a s ∧ s.context = Γ' := by
  constructor
  · rintro ⟨s', h, hΓ⟩
    have hs' := hw.eq_of_passes h
    subst hs'
    exact ⟨h, hΓ⟩
  · rintro ⟨h, hΓ⟩
    exact ⟨s, h, hΓ⟩

theorem exists_passes_pure_iff {Γ' : Context} :
    (∃ s', (pure () : Walk Unit).Passes env s () s' ∧ s'.context = Γ') ↔ s.context = Γ' := by
  simp only [passes_pure, true_and, exists_eq_left']

mutual

/-- In a function with the result `ρ`, the walk over a statement passes where the rules allow the
statement, and leaves the context that they say. -/
theorem checkStmt_passes_iff (henv : env.Serves fs) {caller : Caller}
    (hcaller : env.caller = some caller) :
    ∀ (st : Stmt) {s : ScopeStack} (_ : s.Distinct) {Γ' : Context},
      StmtOk fs caller.type s.context st Γ' ↔
        ∃ s', (checkStmt st).Passes env s () s' ∧ s'.context = Γ'
  | .varDecl d, s, hs, Γ' => by
    rw [checkStmt, ← declares_iff henv hs .inFunction]
    exact ⟨fun h => by cases h; assumption, .varDecl⟩
  | .assign loc target value, s, hs, Γ' => by
    have hassign : ∀ {τ s'}, (checkAssign target loc (checkValue? value)).Passes env s τ s' ↔
        HasType fs s.context (.assign loc target value) τ ∧ s = s' :=
      checkExpr_passes_iff henv hs (.assign loc target value)
    simp only [checkStmt, passes_discard, hassign]
    constructor
    · intro h
      cases h with
      | assign assigned => exact ⟨s, ⟨_, assigned, rfl⟩, rfl⟩
    · rintro ⟨_, ⟨τ, assigned, rfl⟩, rfl⟩
      exact .assign assigned
  | .expr loc value, s, hs, Γ' => by
    simp only [checkStmt, passes_discard, checkExpr_passes_iff henv hs]
    constructor
    · intro h
      cases h with
      | expr value => exact ⟨s, ⟨_, value, rfl⟩, rfl⟩
    · rintro ⟨_, ⟨τ, value, rfl⟩, rfl⟩
      exact .expr value
  | .block loc body, s, hs, Γ' => by
    rw [checkStmt, exists_passes_still_iff (still_checkBlock body),
      ← checkBlock_passes_iff henv hcaller body hs]
    constructor
    · intro h
      cases h with
      | block body => exact ⟨body, rfl⟩
    · rintro ⟨body, rfl⟩
      exact .block body
  | .ifThen loc condition thenBlock elseBlock, s, hs, Γ' => by
    rw [checkStmt, recordControl]
    simp only [passes_find_bind, Finding.diagnostic?, true_and]
    constructor
    · intro h
      cases h with
      | ifThen condition yes no =>
        refine ⟨s, passes_bind.mpr ⟨_, s, (checkExpr_passes_iff henv hs _).mpr ⟨condition, rfl⟩,
          passes_bind.mpr
            ⟨(), s, (checkBlock_passes_iff henv hcaller thenBlock hs).mp yes, ?_⟩⟩, rfl⟩
        exact (checkBlock?_passes_iff henv hcaller elseBlock hs).mp no
    · rintro ⟨s', h, rfl⟩
      obtain ⟨τ, _, hwalk, h⟩ := passes_bind.mp h
      obtain ⟨condition, rfl⟩ := (checkExpr_passes_iff henv hs _).mp hwalk
      obtain ⟨_, s₁, hyes, hno⟩ := passes_bind.mp h
      have hs₁ := (still_checkBlock thenBlock).eq_of_passes hyes
      subst hs₁
      have hs' := (still_checkBlock? elseBlock).eq_of_passes hno
      subst hs'
      exact .ifThen condition ((checkBlock_passes_iff henv hcaller thenBlock hs).mpr hyes)
        ((checkBlock?_passes_iff henv hcaller elseBlock hs).mpr hno)
  | .whileLoop loc condition body, s, hs, Γ' => by
    rw [checkStmt, recordControl]
    simp only [passes_find_bind, Finding.diagnostic?, true_and]
    constructor
    · intro h
      cases h with
      | whileLoop condition hbody =>
        exact ⟨s, passes_bind.mpr ⟨_, s, (checkExpr_passes_iff henv hs _).mpr ⟨condition, rfl⟩,
          (checkBlock_passes_iff henv hcaller body hs).mp hbody⟩, rfl⟩
    · rintro ⟨s', h, rfl⟩
      obtain ⟨τ, _, hwalk, hbody⟩ := passes_bind.mp h
      obtain ⟨condition, rfl⟩ := (checkExpr_passes_iff henv hs _).mp hwalk
      have hs' := (still_checkBlock body).eq_of_passes hbody
      subst hs'
      exact .whileLoop condition ((checkBlock_passes_iff henv hcaller body hs).mpr hbody)
  | .forLoop loc init condition update body, s, hs, Γ' => by
    rw [checkStmt_forLoop, recordControl]
    simp only [passes_find_bind, Finding.diagnostic?, true_and,
      passes_enclosed_iff (framed_forLoop init condition update body)]
    have hpush := ScopeStack.distinct_push hs
    constructor
    · intro h
      cases h with
      | forLoop start test step hbody =>
        rw [← ScopeStack.context_push, checkStmt?_passes_iff henv hcaller init hpush] at start
        obtain ⟨s₁, hstart, rfl⟩ := start
        have hs₁ := (framed_checkStmt? init).distinct_of_passes hpush hstart
        obtain ⟨s₂, hstep, rfl⟩ := (checkStmt?_passes_iff henv hcaller update hs₁).mp step
        have hs₂ := (framed_checkStmt? update).distinct_of_passes hs₁ hstep
        refine ⟨s, ⟨⟨s₂, passes_bind.mpr ⟨(), s₁, hstart, passes_bind.mpr ⟨(), s₁, ?_,
          passes_bind.mpr ⟨(), s₂, hstep, ?_⟩⟩⟩⟩, rfl⟩, rfl⟩
        · exact (checkCondition?_passes_iff henv hs₁).mpr ⟨test, rfl⟩
        · exact (checkBlock_passes_iff henv hcaller body hs₂).mp hbody
    · rintro ⟨_, ⟨⟨s₃, h⟩, rfl⟩, rfl⟩
      obtain ⟨_, s₁, hstart, h⟩ := passes_bind.mp h
      have hs₁ := (framed_checkStmt? init).distinct_of_passes hpush hstart
      obtain ⟨_, _, htest, h⟩ := passes_bind.mp h
      obtain ⟨test, rfl⟩ := (checkCondition?_passes_iff henv hs₁).mp htest
      obtain ⟨_, s₂, hstep, hbody⟩ := passes_bind.mp h
      have hs₂ := (framed_checkStmt? update).distinct_of_passes hs₁ hstep
      have hs₃ := (still_checkBlock body).eq_of_passes hbody
      subst hs₃
      exact .forLoop ((checkStmt?_passes_iff henv hcaller init hpush).mpr ⟨s₁, hstart, rfl⟩) test
        ((checkStmt?_passes_iff henv hcaller update hs₁).mpr ⟨_, hstep, rfl⟩)
        ((checkBlock_passes_iff henv hcaller body hs₂).mpr hbody)
  | .result loc none, s, hs, Γ' => by
    simp only [checkStmt, checkReturn_passes_iff hcaller]
    constructor
    · intro h
      cases h with
      | returnBare fits => exact ⟨s, ⟨fits_iff.mp fits, rfl⟩, rfl⟩
    · rintro ⟨_, ⟨fits, rfl⟩, rfl⟩
      exact .returnBare (fits_iff.mpr fits)
  | .result loc (some value), s, hs, Γ' => by
    simp only [checkStmt, checkReturn_passes_iff hcaller, checkExpr_passes_iff henv hs]
    constructor
    · intro h
      cases h with
      | returnValue value fits => exact ⟨s, ⟨_, ⟨value, rfl⟩, fits_iff.mp fits⟩, rfl⟩
    · rintro ⟨_, ⟨σ, ⟨value, rfl⟩, fits⟩, rfl⟩
      exact .returnValue value (fits_iff.mpr fits)
  | .unsupported, s, hs, Γ' => by
    rw [checkStmt]
    exact ⟨fun h => (nomatch h), fun ⟨_, h, _⟩ => absurd h not_passes_fail⟩

theorem checkStmt?_passes_iff (henv : env.Serves fs) {caller : Caller}
    (hcaller : env.caller = some caller) :
    ∀ (st : Option Stmt) {s : ScopeStack} (_ : s.Distinct) {Γ' : Context},
      OptionStmtOk fs caller.type s.context st Γ' ↔
        ∃ s', (checkStmt? st).Passes env s () s' ∧ s'.context = Γ'
  | none, s, hs, Γ' => by
    rw [checkStmt?, exists_passes_pure_iff]
    constructor
    · intro h
      cases h with
      | none => rfl
    · rintro rfl
      exact .none
  | some st, s, hs, Γ' => by
    rw [checkStmt?, ← checkStmt_passes_iff henv hcaller st hs]
    exact ⟨fun h => by cases h; assumption, .some⟩

theorem checkBlock_passes_iff (henv : env.Serves fs) {caller : Caller}
    (hcaller : env.caller = some caller) :
    ∀ (b : Block) {s : ScopeStack} (_ : s.Distinct),
      BlockOk fs caller.type s.context b ↔ (checkBlock b).Passes env s () s
  | .mk loc ss, s, hs => by
    rw [checkBlock_eq, passes_enclosed_iff (framed_checkStmts _)]
    have hpush := ScopeStack.distinct_push hs
    constructor
    · intro h
      cases h with
      | mk stmts =>
        obtain ⟨s₁, h, -⟩ := (checkStmts_passes_iff henv hcaller ss hpush).mp stmts
        exact ⟨⟨s₁, h⟩, rfl⟩
    · rintro ⟨⟨s₁, h⟩, -⟩
      exact .mk ((checkStmts_passes_iff henv hcaller ss hpush).mpr ⟨s₁, h, rfl⟩)

theorem checkBlock?_passes_iff (henv : env.Serves fs) {caller : Caller}
    (hcaller : env.caller = some caller) :
    ∀ (b : Option Block) {s : ScopeStack} (_ : s.Distinct),
      OptionBlockOk fs caller.type s.context b ↔ (checkBlock? b).Passes env s () s
  | none, s, hs => by
    rw [checkBlock?, passes_pure]
    exact ⟨fun _ => ⟨rfl, rfl⟩, fun _ => .none⟩
  | some b, s, hs => by
    rw [checkBlock?, ← checkBlock_passes_iff henv hcaller b hs]
    exact ⟨fun h => by cases h; assumption, .some⟩

theorem checkStmts_passes_iff (henv : env.Serves fs) {caller : Caller}
    (hcaller : env.caller = some caller) :
    ∀ (ss : List Stmt) {s : ScopeStack} (_ : s.Distinct) {Γ' : Context},
      StmtsOk fs caller.type s.context ss Γ' ↔
        ∃ s', (checkStmts ss).Passes env s () s' ∧ s'.context = Γ'
  | [], s, hs, Γ' => by
    rw [checkStmts, exists_passes_pure_iff]
    constructor
    · intro h
      cases h with
      | nil => rfl
    · rintro rfl
      exact .nil
  | st :: ss, s, hs, Γ' => by
    rw [checkStmts]
    constructor
    · intro h
      cases h with
      | cons first rest =>
        obtain ⟨s₁, hfirst, rfl⟩ := (checkStmt_passes_iff henv hcaller st hs).mp first
        have hs₁ := (framed_checkStmt st).distinct_of_passes hs hfirst
        obtain ⟨s', hrest, rfl⟩ := (checkStmts_passes_iff henv hcaller ss hs₁).mp rest
        exact ⟨s', passes_bind.mpr ⟨(), s₁, hfirst, hrest⟩, rfl⟩
    · rintro ⟨s', h, rfl⟩
      obtain ⟨_, s₁, hfirst, hrest⟩ := passes_bind.mp h
      have hs₁ := (framed_checkStmt st).distinct_of_passes hs hfirst
      exact .cons ((checkStmt_passes_iff henv hcaller st hs).mpr ⟨s₁, hfirst, rfl⟩)
        ((checkStmts_passes_iff henv hcaller ss hs₁).mpr ⟨s', hrest, rfl⟩)

end

end Checking

end Sema
