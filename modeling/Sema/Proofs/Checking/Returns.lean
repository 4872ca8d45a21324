import Sema.Proofs.Checking.Statements

/-!
# The walk over statements finds the returns

In a function, the walk over a statement finds that the function returns just if there is a `return`
somewhere in the statement (`checkStmt_finds_returned`), also where it is never reached.
-/

namespace Sema

open Typing

namespace Walk

variable {α β : Type} {env : Env} {finding : Finding} {p q : Prop}

/-! ## Walks that make a finding -/

/-- Under `p`, and only then, the walk makes the finding. -/
def Detects (finding : Finding) (w : Walk α) (env : Env) (p : Prop) : Prop :=
  ∀ s fs a s', w.Gives env s fs a s' → (finding ∈ fs ↔ p)

namespace Detects

theorem bind {w : Walk α} {f : α → Walk β} (hw : w.Detects finding env p)
    (hf : ∀ a, (f a).Detects finding env q) : (w >>= f).Detects finding env (p ∨ q) := by
  intro s fs b s' h
  obtain ⟨fs₁, a, s₁, fs₂, h₁, h₂, rfl⟩ := gives_bind.mp h
  rw [List.mem_append, hw s fs₁ a s₁ h₁, hf a s₁ fs₂ b s' h₂]

theorem after {w : Walk α} {f : α → Walk β} (hw : w.Detects finding env False)
    (hf : ∀ a, (f a).Detects finding env p) : (w >>= f).Detects finding env p := by
  intro s fs b s' h
  rw [hw.bind hf s fs b s' h, false_or]

theorem congr {w : Walk α} (hw : w.Detects finding env p) (h : p ↔ q) :
    w.Detects finding env q :=
  fun s fs a s' hg => (hw s fs a s' hg).trans h

theorem read {g : Env → ScopeStack → α} :
    Detects finding (fun env s => ⟨s, [], .ok (g env s)⟩) env False := by
  intro s fs a s' h
  obtain ⟨-, -, rfl⟩ := gives_read.mp h
  simp

theorem read_bind {g : Env → ScopeStack → α} {f : α → Walk β}
    (hf : ∀ s, (f (g env s)).Detects finding env p) :
    Detects finding (Walk.bind (fun env s => ⟨s, [], .ok (g env s)⟩) f) env p := by
  intro s fs b s' h
  obtain ⟨_, _, _, fs', hread, h, rfl⟩ := gives_bind.mp h
  obtain ⟨rfl, rfl, rfl⟩ := gives_read.mp hread
  exact hf s s fs' b s' h

theorem find {other : Finding} (h : p ↔ other = finding) : (find other).Detects finding env p := by
  intro s fs u s' hg
  obtain ⟨-, rfl⟩ := gives_find.mp hg
  rw [List.mem_singleton, h, eq_comm]

theorem fail (e : CheckError) : (fail e : Walk α).Detects finding env p :=
  fun _ _ _ _ h => absurd h not_gives_fail

end Detects

/-! ## Walks that find a return -/

/-- Under `p`, and only then, the walk finds that the function returns. -/
def Returned (w : Walk α) (env : Env) (p : Prop) : Prop :=
  ∀ s fs a s', w.Gives env s fs a s' → (.returned ∈ fs ↔ p)

namespace Returned

theorem bind {w : Walk α} {f : α → Walk β} (hw : w.Returned env p)
    (hf : ∀ a, (f a).Returned env q) : (w >>= f).Returned env (p ∨ q) :=
  Detects.bind hw hf

theorem after {w : Walk α} {f : α → Walk β} (hw : w.Returned env False)
    (hf : ∀ a, (f a).Returned env p) : (w >>= f).Returned env p :=
  Detects.after hw hf

theorem congr {w : Walk α} (hw : w.Returned env p) (h : p ↔ q) : w.Returned env q :=
  Detects.congr hw h

theorem read {g : Env → ScopeStack → α} :
    Returned (fun env s => ⟨s, [], .ok (g env s)⟩) env False :=
  Detects.read

theorem find {finding : Finding} (h : p ↔ finding = .returned) : (find finding).Returned env p :=
  Detects.find h

theorem push : push.Returned env False := by
  intro s fs u s' h
  obtain ⟨-, rfl⟩ := gives_push.mp h
  simp

theorem declare (symbol : Symbol) : (declare symbol).Returned env False := by
  intro s fs b s' h
  obtain ⟨-, rfl⟩ := gives_declare.mp h
  simp

theorem fail (e : CheckError) : (fail e : Walk α).Returned env p :=
  Detects.fail e

theorem enclosed {w : Walk Unit} (hf : w.Framed) (hw : w.Returned env p) :
    (enclosed w).Returned env p := by
  intro s fs u s' h
  obtain ⟨⟨s₁, h⟩, -⟩ := (gives_enclosed_iff hf).mp h
  exact hw s.push fs () s₁ h

theorem closed : Closed fun w => w.Returned env False where
  pure _ := read
  bind hw hf := hw.after hf
  callee? _ := read
  caller := read
  resolve _ := read
  report _ _ _ _ := find (by simp)
  selfCall := find (by simp)

end Returned

end Walk

namespace Checking

open Walk

variable {env : Env}

theorem checkExpr_finds_no_returned (e : Expr) : (checkExpr e).Returned env False :=
  closed_checkExpr Returned.closed e (.inr Returned.fail)

theorem checkVarDecl_finds_no_returned (extent : Extent) (d : VarDecl) :
    (checkVarDecl extent d).Returned env False :=
  closed_checkVarDecl Returned.closed Returned.declare extent
    (fun _ => .find (by cases extent <;> simp [Extent.found])) d (.inr Returned.fail)

theorem checkAssign_finds_no_returned (target : String) (loc : Location) (value : Option Expr) :
    (checkAssign target loc (checkValue? value)).Returned env False :=
  checkExpr_finds_no_returned (.assign loc target value)

theorem checkCondition?_finds_no_returned (condition : Option Expr) :
    (checkCondition? condition).Returned env False := by
  cases condition with
  | none => exact .read
  | some e => exact (checkExpr_finds_no_returned e).after fun _ => .read

theorem recordControl_finds_no_returned (kind : ControlKind) (loc : Location) :
    (recordControl kind loc).Returned env False :=
  .find (by simp)

theorem checkReturn_finds_returned {caller : Caller} (hcaller : env.caller = some caller)
    (loc : Location) (value : Option Expr) : (checkReturn loc value).Returned env True := by
  intro s fs u s' h
  obtain ⟨_, _, _, fs₁, hread, h, rfl⟩ := gives_bind.mp h
  obtain ⟨rfl, -, -⟩ := gives_caller.mp hread
  rw [hcaller] at h
  obtain ⟨_, _, _, fs₂, hfind, -, rfl⟩ := gives_bind.mp h
  obtain ⟨-, rfl⟩ := gives_find.mp hfind
  simp

mutual

/-- In a function, the walk over a statement finds a `return` just if the statement has one. -/
theorem checkStmt_finds_returned {caller : Caller} (hcaller : env.caller = some caller) :
    ∀ st : Stmt, (checkStmt st).Returned env (Returns st)
  | .varDecl d => (checkVarDecl_finds_no_returned _ d).congr ⟨False.elim, nofun⟩
  | .assign loc target value =>
    ((checkAssign_finds_no_returned target loc value).after fun _ => .read).congr
      ⟨False.elim, nofun⟩
  | .expr _ value =>
    ((checkExpr_finds_no_returned value).after fun _ => .read).congr ⟨False.elim, nofun⟩
  | .block _ body =>
    (checkBlock_finds_returned hcaller body).congr ⟨.block, fun h => by cases h; assumption⟩
  | .ifThen loc condition yes no => by
    have h := (checkBlock_finds_returned hcaller yes).bind fun _ =>
      checkBlock?_finds_returned hcaller no
    refine ((recordControl_finds_no_returned .ifThen loc).after fun _ =>
      (checkExpr_finds_no_returned condition).after fun _ => h).congr ?_
    constructor
    · rintro (hyes | ⟨b, rfl, hno⟩)
      · exact .thenBlock hyes
      · exact .elseBlock hno
    · intro h
      cases h with
      | thenBlock body => exact .inl body
      | elseBlock body => exact .inr ⟨_, rfl, body⟩
  | .whileLoop loc condition body =>
    ((recordControl_finds_no_returned .whileLoop loc).after fun _ =>
      (checkExpr_finds_no_returned condition).after fun _ =>
        checkBlock_finds_returned hcaller body).congr
      ⟨.whileLoop, fun h => by cases h; assumption⟩
  | .forLoop loc init condition update body => by
    rw [checkStmt_forLoop]
    have h := (checkStmt?_finds_returned hcaller init).bind fun _ =>
      (checkCondition?_finds_no_returned condition).after fun _ =>
        (checkStmt?_finds_returned hcaller update).bind fun _ =>
          checkBlock_finds_returned hcaller body
    refine ((recordControl_finds_no_returned .forLoop loc).after fun _ =>
      h.enclosed (framed_forLoop init condition update body)).congr ?_
    constructor
    · rintro (⟨st, rfl, hinit⟩ | ⟨st, rfl, hupdate⟩ | hbody)
      · exact .forInit hinit
      · exact .forUpdate hupdate
      · exact .forLoop hbody
    · intro h
      cases h with
      | forInit stmt => exact .inl ⟨_, rfl, stmt⟩
      | forUpdate stmt => exact .inr (.inl ⟨_, rfl, stmt⟩)
      | forLoop body => exact .inr (.inr body)
  | .result loc value =>
    (checkReturn_finds_returned hcaller loc value).congr ⟨fun _ => .result, fun _ => trivial⟩
  | .unsupported => .fail _

theorem checkStmt?_finds_returned {caller : Caller} (hcaller : env.caller = some caller) :
    ∀ st : Option Stmt, (checkStmt? st).Returned env (∃ s, st = some s ∧ Returns s)
  | none => Returned.congr .read ⟨False.elim, fun ⟨_, h, _⟩ => nomatch h⟩
  | some st => (checkStmt_finds_returned hcaller st).congr
    ⟨fun h => ⟨st, rfl, h⟩, fun ⟨_, h, hr⟩ => Option.some.inj h ▸ hr⟩

theorem checkBlock_finds_returned {caller : Caller} (hcaller : env.caller = some caller) :
    ∀ b : Block, (checkBlock b).Returned env (BlockReturns b)
  | .mk loc ss => by
    rw [checkBlock_eq]
    exact ((checkStmts_finds_returned hcaller ss).enclosed (framed_checkStmts _)).congr
      ⟨.mk, fun h => by cases h; assumption⟩

theorem checkBlock?_finds_returned {caller : Caller} (hcaller : env.caller = some caller) :
    ∀ b : Option Block, (checkBlock? b).Returned env (∃ b', b = some b' ∧ BlockReturns b')
  | none => Returned.congr .read ⟨False.elim, fun ⟨_, h, _⟩ => nomatch h⟩
  | some b => (checkBlock_finds_returned hcaller b).congr
    ⟨fun h => ⟨b, rfl, h⟩, fun ⟨_, h, hr⟩ => Option.some.inj h ▸ hr⟩

theorem checkStmts_finds_returned {caller : Caller} (hcaller : env.caller = some caller) :
    ∀ ss : List Stmt, (checkStmts ss).Returned env (StmtsReturn ss)
  | [] => Returned.congr .read ⟨False.elim, nofun⟩
  | st :: ss => by
    refine ((checkStmt_finds_returned hcaller st).bind fun _ =>
      checkStmts_finds_returned hcaller ss).congr ?_
    constructor
    · rintro (h | h)
      · exact .head h
      · exact .tail h
    · intro h
      cases h with
      | head stmt => exact .inl stmt
      | tail stmts => exact .inr stmts

end

end Checking

end Sema
