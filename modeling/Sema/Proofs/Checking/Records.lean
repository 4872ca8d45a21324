import Sema.Proofs.Checking.Runs

/-!
# Records of what a check files

A sink keeps no trace of a diagnostic whose written form it has already. So a recorded step
(`Recorded`) carries along what it files, repeated diagnostics included, together with the proof
that this is what its sink is extended by. The check of a program is put together from recorded
steps just as it is from steps (`Recorded.step_checkProgram`), and what it files on its way is the
record of the program (`Program.filed`).
-/

namespace Sema

/-- A step of a check with what it files, in order. -/
structure Recorded (α : Type) where
  step : CheckM α
  filed : Checker → List Diagnostic
  /-- The sink gets what is filed, and nothing else. -/
  sink_run : ∀ c, (step.run c).2.sink = c.sink.extend (filed c)

namespace Recorded

variable {α β : Type}

def filedAfter (f : α → Recorded β) : Except CheckError α × Checker → List Diagnostic
  | (.ok a, c) => (f a).filed c
  | (.error _, _) => []

protected def bind (m : Recorded α) (f : α → Recorded β) : Recorded β where
  step := m.step >>= fun a => (f a).step
  filed c := m.filed c ++ filedAfter f (m.step.run c)
  sink_run c := by
    rw [CheckM.run_bind, Sink.extend_append, ← m.sink_run c]
    rcases m.step.run c with ⟨_ | a, c₁⟩
    · rfl
    · exact (f a).sink_run c₁

def quiet (m : CheckM α) (h : ∀ c, (m.run c).2.sink = c.sink) : Recorded α where
  step := m
  filed _ := []
  sink_run c := h c

instance : Monad Recorded where
  pure a := quiet (pure a) fun _ => rfl
  bind := Recorded.bind

def get : Recorded Checker :=
  quiet MonadState.get fun _ => rfl

/-- Enters a function, or leaves the one the checker is in. -/
def setCurrent (current : Current) : Recorded Unit :=
  quiet (CheckM.setCurrent current) fun _ => rfl

/-- A walk files the violations that it finds, in order. -/
def walk (w : Walk α) : Recorded α where
  step := CheckM.walk w
  filed c := (w c.env c.scopes).findings.filterMap Finding.diagnostic?
  sink_run _ := (Checker.absorbed_frame _ _).2.1

@[simp] theorem step_bind (m : Recorded α) (f : α → Recorded β) :
    (m >>= f).step = m.step >>= fun a => (f a).step := rfl

@[simp] theorem step_pure (a : α) : (pure a : Recorded α).step = pure a := rfl

@[simp] theorem step_walk (w : Walk α) : (walk w).step = CheckM.walk w := rfl

@[simp] theorem step_quiet (m : CheckM α) (h : ∀ c, (m.run c).2.sink = c.sink) :
    (quiet m h).step = m := rfl

@[simp] theorem step_get : get.step = MonadState.get := rfl

@[simp] theorem step_setCurrent (current : Current) :
    (setCurrent current).step = CheckM.setCurrent current := rfl

/-! ## The recorded check -/

def registerFunction (f : FunctionDef) : Recorded Unit := do
  let type ← walk (Walk.resolveType f.returnType f.loc)
  let parameters ← walk (Checking.paramSymbols f.name [] f.params)
  if (← get).functions.contains f.name then
    walk (Walk.report (.duplicateFunction f.name) f.loc)
  else
    quiet (modify fun c =>
      { c with functions := c.functions.insert f.name (f.symbol type parameters) }) fun _ => rfl

def registerFunctions : List FunctionDef → Recorded Unit
  | [] => pure ()
  | f :: fs => do
    registerFunction f
    registerFunctions fs

def checkReturns (f : FunctionDef) : Recorded Unit := do
  match (← get).function? with
  | none => pure ()
  | some symbol =>
    walk (Walk.reportIf (symbol.type != .void && !symbol.hasReturn)
      (.missingReturn f.name symbol.type) f.loc)

def checkFunction (f : FunctionDef) (registered : Bool) : Recorded Unit := do
  if registered then setCurrent (.entry f.name)
  else
    let type ← walk (Walk.resolveType f.returnType f.loc)
    setCurrent (.detached (f.symbol type []))
  walk (Checking.checkBody f)
  checkReturns f
  walk Walk.pop
  setCurrent .nowhere

def checkDecls : List String → List Decl → Recorded Unit
  | _, [] => pure ()
  | taken, .func f :: ds => do
    checkFunction f (!taken.contains f.name)
    checkDecls (f.name :: taken) ds
  | taken, .var d :: ds => do
    walk (Checking.checkVarDecl .global d)
    checkDecls taken ds
  | _, .unsupported :: _ => quiet (throw .unsupportedDeclaration) fun _ => rfl

/-- What is filed on the entry points among so many functions. -/
def mainFiled : Nat → List Diagnostic
  | 0 => [Violation.missingMain.global]
  | 1 => []
  | count => [(Violation.severalMains count).global]

def checkMain : Recorded Unit where
  step := Checking.checkMain
  filed c := mainFiled (c.functions.functions.filter FunctionSymbol.isMain).length
  sink_run c := by
    show (match (c.functions.functions.filter FunctionSymbol.isMain).length with
      | 0 => c.file Violation.missingMain.global
      | 1 => c
      | count => c.file (Violation.severalMains count).global).sink = _
    rcases (c.functions.functions.filter FunctionSymbol.isMain).length with _ | _ | n <;> rfl

def checkProgram (p : Program) : Recorded Unit := do
  let taken := (← get).functions.keys
  registerFunctions p.functions
  checkDecls taken p.declarations
  checkMain

/-! ### The steps of the recorded check are those of the check -/

theorem step_registerFunction (f : FunctionDef) :
    (registerFunction f).step = Checking.registerFunction f := by
  simp only [registerFunction, Checking.registerFunction, step_bind, step_walk, step_get,
    apply_ite]
  rfl

theorem step_registerFunctions (fs : List FunctionDef) :
    (registerFunctions fs).step = Checking.registerFunctions fs := by
  induction fs with
  | nil => rfl
  | cons f fs ih =>
    rw [registerFunctions, Checking.registerFunctions, step_bind, step_registerFunction, ih]

theorem step_checkReturns (f : FunctionDef) :
    (checkReturns f).step = Checking.checkReturns f := by
  rw [checkReturns, Checking.checkReturns, step_bind, step_get]
  refine congrArg _ (funext fun c => ?_)
  cases c.function? <;> rfl

theorem step_checkFunction (f : FunctionDef) (registered : Bool) :
    (checkFunction f registered).step = Checking.checkFunction f registered := by
  cases registered <;>
    simp only [checkFunction, Checking.checkFunction, step_bind, step_walk, step_setCurrent,
      step_checkReturns, if_true, if_false, Bool.false_eq_true]

theorem step_checkDecls (taken : List String) (ds : List Decl) :
    (checkDecls taken ds).step = Checking.checkDecls taken ds := by
  induction ds generalizing taken with
  | nil => rfl
  | cons d ds ih =>
    cases d with
    | func f =>
      rw [checkDecls, Checking.checkDecls, step_bind, step_checkFunction]
      exact congrArg _ (funext fun _ => ih _)
    | var d =>
      rw [checkDecls, Checking.checkDecls, step_bind, step_walk]
      exact congrArg _ (funext fun _ => ih _)
    | unsupported => rfl

theorem step_checkProgram (p : Program) :
    (checkProgram p).step = Checking.checkProgram p := by
  simp only [checkProgram, Checking.checkProgram, step_bind, step_get, step_registerFunctions,
    step_checkDecls]
  rfl

/-! ## What is filed -/

open CheckM

variable {c : Checker} {f : FunctionDef}

theorem filed_bind_of_gives {m : Recorded α} {c₁ : Checker} {a : α} (h : m.step.Gives c a c₁)
    (f : α → Recorded β) : (m >>= f).filed c = m.filed c ++ (f a).filed c₁ := by
  show m.filed c ++ filedAfter f (m.step.run c) = _
  rw [show m.step.run c = (.ok a, c₁) from h]
  rfl

theorem filed_walk_of_gives {w : Walk α} {fs : List Finding} {a : α} {s : ScopeStack}
    (h : w.Gives c.env c.scopes fs a s) :
    (walk w).filed c = fs.filterMap Finding.diagnostic? := by
  show (w c.env c.scopes).findings.filterMap _ = _
  rw [show w c.env c.scopes = _ from h]

theorem filed_walk_of_reports {w : Walk α} {ds : List Diagnostic} {a : α}
    (h : w.Reports ds a) : (walk w).filed c = ds := by
  obtain ⟨fs, hgives, -, rfl⟩ := h c.env c.scopes
  exact filed_walk_of_gives hgives

theorem filed_registerFunction :
    (registerFunction f).filed c =
      f.headReports ++ if f.name ∈ c.functions.keys then [f.duplicateReport] else [] := by
  have htype := Walk.reports_resolveType f.returnType f.loc
  have hparams := Checking.reports_paramSymbols f.name [] f.params
  rw [registerFunction, filed_bind_of_gives ((gives_walk_reports htype).mpr ⟨rfl, rfl⟩),
    filed_bind_of_gives ((gives_walk_reports hparams).mpr ⟨rfl, rfl⟩),
    filed_walk_of_reports htype, filed_walk_of_reports hparams, FunctionDef.headReports,
    List.append_assoc]
  refine congrArg _ (congrArg _ ?_)
  rw [filed_bind_of_gives (m := get) rfl]
  simp only [FunctionTable.contains_iff_mem_keys]
  split
  · exact filed_walk_of_reports (.report _ _)
  · rfl

theorem filed_registerFunctions (fs : List FunctionDef) :
    (registerFunctions fs).filed c = registrationReports c.functions.keys fs := by
  induction fs generalizing c with
  | nil => rfl
  | cons f fs ih =>
    have hstep := (Checking.registerFunction_gives_iff (c := c) (f := f) (u := ())).mpr rfl
    rw [← step_registerFunction] at hstep
    rw [registerFunctions, filed_bind_of_gives hstep, filed_registerFunction, ih,
      registrationReports, List.append_assoc]
    refine congrArg _ (congrArg _ (registrationReports_congr (fun k => ?_) fs))
    by_cases h : f.name ∈ c.functions.keys
    · simp only [if_pos h, List.mem_cons]
      exact ⟨.inr, fun hk => hk.elim (fun hname => hname ▸ h) id⟩
    · rw [if_neg h]
      simp [FunctionTable.keys, FunctionDef.entry, or_comm]

end Recorded

/-- What the check of a program files on its way, repeated diagnostics included. -/
def Program.filed (p : Program) : List Diagnostic :=
  (Recorded.checkProgram p).filed Checker.empty

end Sema
