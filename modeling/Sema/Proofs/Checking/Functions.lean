import Sema.Proofs.Checking.Registration
import Sema.Proofs.Checking.Returns

/-!
# Checking functions and programs

Between two declarations a checker is ready (`Checker.Ready`): it is in no function, its global
frame holds the variables declared so far, and its table serves the typing rules. From there the
check of a function passes just if the function may stand there (`checkFunction_passes_iff`) and
leaves the checker ready for the next declaration.

A program of supported parts is always checked to the end, and the check files no diagnostic just if
the program is well typed (`diagnostics_eq_nil_iff_wellTyped`).
-/

namespace Sema

open Typing

namespace Checking

open Walk

variable {env : Env} {s s' : ScopeStack} {fs : List FunctionDef}

/-! ## Parameters and bodies -/

theorem framed_bindParams (func : String) (ps : List Param) : (bindParams func ps).Framed := by
  induction ps with
  | nil => exact still_read.framed
  | cons p ps ih =>
    exact (closed_framed.resolveType _ _).bind fun _ => (framed_declare _).bind fun _ =>
      (closed_framed.reportIf _ _ _).bind fun _ => ih

theorem completes_bindParams (func : String) (ps : List Param) :
    (bindParams func ps).Completes := by
  induction ps with
  | nil => exact closed_completes.pure ()
  | cons p ps ih =>
    exact (closed_completes.resolveType _ _).bind fun _ => (completes_declare _).bind fun _ =>
      (closed_completes.reportIf _ _ _).bind fun _ => ih

theorem bindParams_cons_passes_iff {func : String} {p : Param} {ps : List Param} {u : Unit} :
    (bindParams func (p :: ps)).Passes env s u s' ↔
      ∃ τ s₁, Ty.resolve p.type = .ok τ ∧ s.declare p.name (paramSymbol p τ) = .ok s₁ ∧
        (bindParams func ps).Passes env s₁ () s' := by
  rw [bindParams, passes_resolveType_bind]
  refine exists_congr fun τ => ?_
  rw [exists_and_left]
  refine and_congr_right fun _ => ?_
  rw [passes_bind]
  simp only [passes_reportIf_bind, Bool.not_eq_false']
  constructor
  · rintro ⟨fresh, s₁, hd, rfl, h⟩
    exact ⟨s₁, passes_declare_fresh.mp hd, h⟩
  · rintro ⟨s₁, hd, h⟩
    exact ⟨true, s₁, passes_declare_fresh.mpr hd, rfl, h⟩

theorem paramsOk_iff {func : String} {ps : List Param} {F F' : Frame} {Γ : Context}
    (hF : s.context = F :: Γ) :
    ParamsOk F ps F' ↔ ∃ s', (bindParams func ps).Passes env s () s' ∧ s'.context = F' :: Γ := by
  induction ps generalizing s F with
  | nil =>
    rw [bindParams, exists_passes_pure_iff, hF, List.cons.injEq, and_iff_left rfl]
    constructor
    · intro h
      cases h
      rfl
    · rintro rfl
      exact .nil
  | cons p ps ih =>
    simp only [bindParams_cons_passes_iff]
    constructor
    · intro h
      cases h with
      | @cons _ _ _ _ τ named fresh rest =>
        obtain ⟨s₁, hd, hs₁⟩ := ScopeStack.exists_declare hF fresh (paramSymbol p τ)
        obtain ⟨s', h, hs'⟩ := (ih hs₁).mp rest
        exact ⟨s', ⟨τ, s₁, names_iff.mp named, hd, h⟩, hs'⟩
    · rintro ⟨s', ⟨τ, s₁, named, hd, h⟩, hs'⟩
      obtain ⟨F₀, Γ₀, hΓ, fresh, hs₁⟩ := ScopeStack.context_declare hd
      rw [hF] at hΓ
      cases hΓ
      exact .cons (names_iff.mpr named) fresh ((ih hs₁).mpr ⟨s', h, hs'⟩)

theorem framed_body (f : FunctionDef) :
    (do bindParams f.name f.params; checkStmts f.body.statements : Walk Unit).Framed :=
  (framed_bindParams _ _).bind fun _ => framed_checkStmts _

theorem pop_of_checkBody_gives {f : FunctionDef} {findings : List Finding} {u : Unit}
    (h : (checkBody f).Gives env s findings u s') : s'.pop = .ok s := by
  obtain ⟨_, _, _, _, hopen, hrest, rfl⟩ := gives_bind.mp h
  obtain ⟨rfl, rfl⟩ := gives_push.mp hopen
  exact ScopeStack.pop_of_tail_frames (framed_body f env s.push _ u s' hrest).1

theorem checkBody_passes_iff (henv : env.Serves fs) {caller : Caller}
    (hcaller : env.caller = some caller) (hs : s.Distinct) {f : FunctionDef} :
    (∃ s', (checkBody f).Passes env s () s') ↔
      ∃ F Γ, ParamsOk [] f.params F ∧
        StmtsOk fs caller.type (F :: s.context) f.body.statements Γ := by
  have hpush := ScopeStack.distinct_push hs
  constructor
  · rintro ⟨s', h⟩
    obtain ⟨_, _, hopen, h⟩ := passes_bind.mp h
    cases passes_push.mp hopen
    obtain ⟨_, s₁, hparams, hstmts⟩ := passes_bind.mp h
    have hs₁ := (framed_bindParams _ _).distinct_of_passes hpush hparams
    obtain ⟨F, hF⟩ :=
      ScopeStack.context_of_tail_frames ((framed_bindParams _ _).tail_of_passes hparams)
    refine ⟨F, s'.context, (paramsOk_iff (ScopeStack.context_push s)).mpr ⟨s₁, hparams, hF⟩, ?_⟩
    rw [← hF]
    exact (checkStmts_passes_iff henv hcaller _ hs₁).mpr ⟨s', hstmts, rfl⟩
  · rintro ⟨F, Γ, params, body⟩
    obtain ⟨s₁, hparams, hF⟩ := (paramsOk_iff (ScopeStack.context_push s)).mp params
    have hs₁ := (framed_bindParams _ _).distinct_of_passes hpush hparams
    rw [← hF] at body
    obtain ⟨s', hstmts, -⟩ := (checkStmts_passes_iff henv hcaller _ hs₁).mp body
    exact ⟨s', passes_bind.mpr ⟨(), s.push, passes_push.mpr rfl,
      passes_bind.mpr ⟨(), s₁, hparams, hstmts⟩⟩⟩

theorem bindParams_finds_no_returned (func : String) (ps : List Param) :
    (bindParams func ps).Returned env False := by
  induction ps with
  | nil => exact .read
  | cons p ps ih =>
    exact (Returned.closed.resolveType _ _).after fun _ => (Returned.declare _).after fun _ =>
      (Returned.closed.reportIf _ _ _).after fun _ => ih

theorem checkBody_finds_returned {caller : Caller} (hcaller : env.caller = some caller)
    (f : FunctionDef) : (checkBody f).Returned env (StmtsReturn f.body.statements) :=
  Returned.push.after fun _ => (bindParams_finds_no_returned _ _).after fun _ =>
    checkStmts_finds_returned hcaller _

end Checking

/-! ## Between declarations -/

/-- The checker stands between two declarations, after the global variables `G` and before the
functions `pending` among the functions `fs`. -/
structure Checker.Ready (c : Checker) (fs : List FunctionDef) (G : Frame)
    (pending : List FunctionDef) : Prop where
  sink : c.sink = .empty
  current : c.current = .nowhere
  context : c.scopes.context = [G]
  distinct : c.scopes.Distinct
  signatures : c.functions.signatures = FunctionTable.signatures ⟨fs.map FunctionDef.entry⟩
  unwalked : ∀ f ∈ pending, ∃ symbol, c.functions.find? f.name = some symbol ∧
    symbol.type = Ty.named f.returnType ∧ symbol.hasReturn = false
  apart : (pending.map (·.name)).Nodup

namespace Checker

def enter (c : Checker) (key : String) : Checker :=
  { c with current := .entry key }

/-- The checker at the end of a function whose walk left the given scopes and findings. -/
def walked (c : Checker) (key : String) (s' : ScopeStack) (findings : List Finding) : Checker :=
  findings.foldl absorb { c with scopes := s', current := .entry key }

/-- The checker after a function whose walk left the given scopes and findings. -/
def leave (c : Checker) (key : String) (s' : ScopeStack) (findings : List Finding) : Checker :=
  { c.walked key s' findings with scopes := c.scopes, current := .nowhere }

variable (c : Checker) (key : String) (s' : ScopeStack) (findings : List Finding)

theorem walked_scopes : (c.walked key s' findings).scopes = s' :=
  (absorbed_frame _ findings).1

theorem walked_sink :
    (c.walked key s' findings).sink = c.sink.extend (findings.filterMap Finding.diagnostic?) :=
  (absorbed_frame _ findings).2.1

theorem walked_function? :
    (c.walked key s' findings).function? =
      (c.functions.find? key).map fun f => findings.foldl FunctionSymbol.note f := by
  rw [walked, absorbed_entry _ rfl]
  simp only [function?, FunctionTable.find?_modify, if_true]

end Checker

namespace Checking

open CheckM (walk setCurrent)

variable {c c' : Checker} {s : ScopeStack} {fs pending : List FunctionDef} {G : Frame}
  {f : FunctionDef}

theorem grows_checkReturns (f : FunctionDef) : (checkReturns f).Grows := by
  refine CheckM.Grows.get.bind fun c => ?_
  split
  · exact .pure ()
  · exact .walk _

theorem grows_end (f : FunctionDef) :
    CheckM.Grows (do checkReturns f; walk Walk.pop; setCurrent .nowhere) :=
  (grows_checkReturns f).bind fun _ => (CheckM.Grows.walk _).bind fun _ => .setCurrent _

theorem checkFunction_registered (f : FunctionDef) :
    checkFunction f true = (do
      setCurrent (.entry f.name)
      walk (checkBody f)
      checkReturns f
      walk Walk.pop
      setCurrent .nowhere) := rfl

theorem checkReturns_passes_iff {symbol : FunctionSymbol} (hc : c.function? = some symbol)
    {u : Unit} :
    (checkReturns f).Passes c u c' ↔
      (symbol.type ≠ .void → symbol.hasReturn = true) ∧ c.sink = .empty ∧ c' = c := by
  rw [checkReturns, CheckM.passes_get_bind, hc]
  simp only [CheckM.passes_walk_reporting (.reportIf _ _ _), Walk.passes_reportIf, and_true]
  refine and_congr_left fun _ => ?_
  by_cases hv : symbol.type = .void <;> simp [hv]

theorem passes_pop_walk (hpop : c.scopes.pop = .ok s) {u : Unit} :
    (walk Walk.pop).Passes c u c' ↔ c.sink = .empty ∧ c' = { c with scopes := s } := by
  rw [CheckM.passes_walk]
  constructor
  · rintro ⟨fs, s', h, -, hsink, rfl⟩
    obtain ⟨hs', rfl⟩ := Walk.gives_pop.mp h
    rw [hpop] at hs'
    cases hs'
    exact ⟨hsink, rfl⟩
  · rintro ⟨hsink, rfl⟩
    exact ⟨[], s, Walk.gives_pop.mpr ⟨hpop, rfl⟩, rfl, hsink, rfl⟩

theorem passes_end_iff {symbol : FunctionSymbol} (hc : c.function? = some symbol)
    (hpop : c.scopes.pop = .ok s) {u : Unit} :
    (do checkReturns f; walk Walk.pop; setCurrent .nowhere : CheckM Unit).Passes c u c' ↔
      (symbol.type ≠ .void → symbol.hasReturn = true) ∧ c.sink = .empty ∧
        c' = { c with scopes := s, current := .nowhere } := by
  rw [CheckM.passes_bind fun _ => (CheckM.Grows.walk _).bind fun _ => .setCurrent _]
  simp only [CheckM.passes_bind fun _ => CheckM.Grows.setCurrent _, checkReturns_passes_iff hc]
  constructor
  · rintro ⟨_, _, ⟨hreturns, hsink, rfl⟩, _, _, hwalk, hleave⟩
    obtain ⟨-, rfl⟩ := (passes_pop_walk hpop).mp hwalk
    exact ⟨hreturns, hsink, (CheckM.passes_setCurrent.mp hleave).1⟩
  · rintro ⟨hreturns, hsink, rfl⟩
    exact ⟨(), c, ⟨hreturns, hsink, rfl⟩, (), _, (passes_pop_walk hpop).mpr ⟨hsink, rfl⟩,
      CheckM.passes_setCurrent.mpr ⟨rfl, hsink⟩⟩

/-- What the check of a registered function asks for, and what it leaves. -/
theorem checkFunction_passes_iff {symbol : FunctionSymbol}
    (hkey : c.functions.find? f.name = some symbol) {u : Unit} :
    (checkFunction f true).Passes c u c' ↔
      ∃ findings s', (checkBody f).Gives (c.enter f.name).env c.scopes findings () s' ∧
        findings.filterMap Finding.diagnostic? = [] ∧
        (symbol.type ≠ .void → symbol.hasReturn = true ∨ .returned ∈ findings) ∧
        c.sink = .empty ∧ c' = c.leave f.name s' findings := by
  have hend : ∀ {findings s'} {c' : Checker},
      (checkBody f).Gives (c.enter f.name).env c.scopes findings () s' →
      ((do checkReturns f; walk Walk.pop; setCurrent .nowhere : CheckM Unit).Passes
          (c.walked f.name s' findings) u c' ↔
        (symbol.type ≠ .void → symbol.hasReturn = true ∨ .returned ∈ findings) ∧
          c.sink.extend (findings.filterMap Finding.diagnostic?) = .empty ∧
          c' = c.leave f.name s' findings) := by
    intro findings s' c' h
    have hfunction := c.walked_function? f.name s' findings
    rw [hkey, Option.map_some] at hfunction
    have hpop := pop_of_checkBody_gives h
    rw [← c.walked_scopes f.name s' findings] at hpop
    rw [passes_end_iff hfunction hpop, ← c.walked_sink f.name s',
      FunctionSymbol.hasReturn_foldl_note, ← FunctionSymbol.signature_type,
      FunctionSymbol.signature_foldl_note]
    rfl
  rw [checkFunction_registered,
    CheckM.passes_bind fun _ => (CheckM.Grows.walk _).bind fun _ => grows_end f]
  simp only [CheckM.passes_setCurrent]
  constructor
  · rintro ⟨_, _, ⟨rfl, hc⟩, h⟩
    obtain ⟨_, _, hwalk, h⟩ := (CheckM.passes_bind fun _ => grows_end f).mp h
    obtain ⟨findings, s', hbody, hfs, -, rfl⟩ := CheckM.passes_walk.mp hwalk
    obtain ⟨hreturns, -, rfl⟩ := (hend hbody).mp h
    exact ⟨findings, s', hbody, hfs, hreturns, hc, rfl⟩
  · rintro ⟨findings, s', hbody, hfs, hreturns, hc, rfl⟩
    refine ⟨(), c.enter f.name, ⟨rfl, hc⟩, (CheckM.passes_bind fun _ => grows_end f).mpr
      ⟨(), _, CheckM.passes_walk.mpr ⟨findings, s', hbody, hfs, hc, rfl⟩, (hend hbody).mpr ?_⟩⟩
    exact ⟨hreturns, by rw [hfs, Sink.extend_nil, hc], rfl⟩

/-! ## Declarations -/

/-- The functions as they stand when the first declaration is checked. -/
structure Registered (fs : List FunctionDef) : Prop where
  declared : ∀ f ∈ fs, f.Declared
  apart : (fs.map (·.name)).Nodup

theorem serves_env (hfs : Registered fs)
    (hc : c.functions.signatures = FunctionTable.signatures ⟨fs.map FunctionDef.entry⟩) :
    c.env.Serves fs :=
  serves_registered (fun _ => rfl) hc hfs.declared hfs.apart

theorem functionOk_iff (hfs : Registered fs) (hc : c.Ready fs G pending) (hf : f ∈ pending)
    (hdeclared : f.Declared) :
    FunctionOk fs G f ↔ ∃ c', (checkFunction f true).Passes c () c' := by
  obtain ⟨symbol, hkey, htype, hreturn⟩ := hc.unwalked f hf
  obtain ⟨ρ, named⟩ := hdeclared.result
  have hρ := names_iff.mp named
  rw [Ty.named_of_resolve hρ] at htype
  have hcaller : (c.enter f.name).env.caller = some symbol.caller := by
    show Option.map _ (c.functions.find? f.name) = _
    rw [hkey, Option.map_some]
  have henv : (c.enter f.name).env.Serves fs := serves_env hfs hc.signatures
  have hbody := checkBody_passes_iff henv hcaller hc.distinct (f := f)
  have hreturned := checkBody_finds_returned hcaller f
  rw [hc.context, show symbol.caller.type = ρ from htype] at hbody
  simp only [checkFunction_passes_iff hkey, htype, hreturn, Bool.false_eq_true, false_or]
  constructor
  · intro h
    cases h with
    | @mk ρ' F Γ named' params body returns =>
      have hρ' := names_iff.mp named'
      rw [hρ] at hρ'
      cases hρ'
      obtain ⟨s', findings, hgives, hclean⟩ := hbody.mpr ⟨F, Γ, params, body⟩
      exact ⟨_, findings, s', hgives, hclean, fun hv => (hreturned _ _ _ _ hgives).mpr (returns hv),
        hc.sink, rfl⟩
  · rintro ⟨_, findings, s', hgives, hclean, returns, -, -⟩
    obtain ⟨F, Γ, params, body⟩ := hbody.mp ⟨s', findings, hgives, hclean⟩
    exact .mk named params body fun hv => (hreturned _ _ _ _ hgives).mp (returns hv)

theorem ready_of_checkFunction_passes (hc : c.Ready fs G (f :: pending))
    (h : (checkFunction f true).Passes c () c') : c'.Ready fs G pending := by
  obtain ⟨symbol, hkey, -, -⟩ := hc.unwalked f List.mem_cons_self
  obtain ⟨findings, s', -, -, -, -, rfl⟩ := (checkFunction_passes_iff hkey).mp h
  have hframe := Checker.absorbed_frame { c with scopes := s', current := .entry f.name } findings
  have hentry : ∀ key, (c.leave f.name s' findings).functions.find? key =
      (c.functions.find? key).map fun g =>
        if key = f.name then findings.foldl FunctionSymbol.note g else g := by
    intro key
    rw [Checker.leave, Checker.walked, Checker.absorbed_entry _ rfl, FunctionTable.find?_modify]
  have hapart := hc.apart
  rw [List.map_cons, List.nodup_cons] at hapart
  refine ⟨h.2, rfl, hc.context, hc.distinct, hframe.2.2.trans hc.signatures, fun g hg => ?_,
    hapart.2⟩
  obtain ⟨symbol', hkey', htype, hreturn⟩ := hc.unwalked g (List.mem_cons_of_mem _ hg)
  refine ⟨symbol', (hentry g.name).trans ?_, htype, hreturn⟩
  have hne : g.name ≠ f.name := fun hname => hapart.1 (List.mem_map.mpr ⟨g, hg, hname⟩)
  simp only [hkey', Option.map_some, if_neg hne]

theorem ready_absorbed (hc : c.Ready fs G pending) {G' : Frame} (hs : s.context = [G'])
    (hd : s.Distinct) {findings : List Finding}
    (hclean : findings.filterMap Finding.diagnostic? = []) :
    (findings.foldl Checker.absorb { c with scopes := s }).Ready fs G' pending := by
  rw [Checker.absorbed_nowhere { c with scopes := s } hc.current, hclean, Sink.extend_nil]
  exact ⟨hc.sink, hc.current, hs, hd, hc.signatures, hc.unwalked, hc.apart⟩

/-- A global variable that is declared without diagnostics may stand where it stands, and the
checker is then ready for what follows. -/
theorem declares_of_global_passes (hfs : Registered fs) (hc : c.Ready fs G pending) {d : VarDecl}
    (h : (walk (checkVarDecl .global d)).Passes c () c') :
    ∃ G', Declares fs [G] d [G'] ∧ c'.Ready fs G' pending := by
  obtain ⟨findings, s', hgives, hclean, -, rfl⟩ := CheckM.passes_walk.mp h
  have hpasses : (checkVarDecl .global d).Passes c.env c.scopes () s' := ⟨findings, hgives, hclean⟩
  have hdeclares : Declares fs c.scopes.context d s'.context :=
    (declares_iff (serves_env hfs hc.signatures) hc.distinct .global).mpr ⟨s', hpasses, rfl⟩
  rw [hc.context] at hdeclares
  generalize hs' : s'.context = Γ' at hdeclares
  have hd := (framed_checkVarDecl .global d).distinct_of_passes hc.distinct hpasses
  cases hdeclares with
  | mk named initializer fresh =>
    exact ⟨_, .mk named initializer fresh, ready_absorbed hc hs' hd hclean⟩

theorem global_passes_of_declares (hfs : Registered fs) (hc : c.Ready fs G pending)
    {d : VarDecl} {G' : Frame} (h : Declares fs [G] d [G']) :
    ∃ c', (walk (checkVarDecl .global d)).Passes c () c' ∧ c'.Ready fs G' pending := by
  rw [← hc.context] at h
  obtain ⟨s', hpasses, hs'⟩ :=
    (declares_iff (serves_env hfs hc.signatures) hc.distinct .global).mp h
  have hd := (framed_checkVarDecl .global d).distinct_of_passes hc.distinct hpasses
  obtain ⟨findings, hgives, hclean⟩ := hpasses
  exact ⟨_, CheckM.passes_walk.mpr ⟨findings, s', hgives, hclean, hc.sink, rfl⟩,
    ready_absorbed hc hs' hd hclean⟩

theorem grows_checkFunction (f : FunctionDef) (registered : Bool) :
    (checkFunction f registered).Grows := by
  cases registered with
  | true =>
    exact (CheckM.Grows.setCurrent _).bind fun _ => (CheckM.Grows.walk _).bind fun _ => grows_end f
  | false =>
    exact (CheckM.Grows.walk _).bind fun _ => (CheckM.Grows.setCurrent _).bind fun _ =>
      (CheckM.Grows.walk _).bind fun _ => grows_end f

theorem grows_checkDecls (taken : List String) (ds : List Decl) : (checkDecls taken ds).Grows := by
  induction ds generalizing taken with
  | nil => exact .pure ()
  | cons d ds ih =>
    cases d with
    | func f => exact (grows_checkFunction f _).bind fun _ => ih _
    | var d => exact (CheckM.Grows.walk _).bind fun _ => ih _
    | unsupported => exact .throw _

theorem declsOk_iff (hfs : Registered fs) {ds : List Decl} {taken : List String}
    (hc : c.Ready fs G (ds.filterMap Decl.function?))
    (hmem : ∀ f ∈ ds.filterMap Decl.function?, f ∈ fs ∧ f.name ∉ taken) :
    DeclsOk fs G ds ↔ ∃ c', (checkDecls taken ds).Passes c () c' := by
  induction ds generalizing c G taken with
  | nil => exact ⟨fun _ => ⟨c, rfl, hc.sink⟩, fun _ => .nil⟩
  | cons d ds ih =>
    cases d with
    | func f =>
      have hds : (Decl.func f :: ds).filterMap Decl.function? = f :: ds.filterMap Decl.function? :=
        rfl
      rw [hds] at hc hmem
      obtain ⟨hf, hfree⟩ := hmem f List.mem_cons_self
      have hfunction := functionOk_iff hfs hc List.mem_cons_self (hfs.declared f hf)
      have hrest : ∀ g ∈ ds.filterMap Decl.function?, g ∈ fs ∧ g.name ∉ f.name :: taken := by
        intro g hg
        obtain ⟨hmem, hnot⟩ := hmem g (List.mem_cons_of_mem _ hg)
        refine ⟨hmem, fun h => ?_⟩
        have hapart := hc.apart
        rw [List.map_cons, List.nodup_cons] at hapart
        rcases List.mem_cons.mp h with hname | h
        · exact hapart.1 (List.mem_map.mpr ⟨g, hg, hname⟩)
        · exact hnot h
      simp only [checkDecls, List.contains_eq_mem, hfree, decide_false, Bool.not_false]
      simp only [CheckM.passes_bind fun _ => grows_checkDecls _ ds]
      constructor
      · intro h
        cases h with
        | func function rest =>
          obtain ⟨c₁, hpasses⟩ := hfunction.mp function
          have hc₁ := ready_of_checkFunction_passes hc hpasses
          obtain ⟨c', h⟩ := (ih hc₁ hrest).mp rest
          exact ⟨c', (), c₁, hpasses, h⟩
      · rintro ⟨c', _, c₁, hpasses, h⟩
        have hc₁ := ready_of_checkFunction_passes hc hpasses
        exact .func (hfunction.mpr ⟨c₁, hpasses⟩) ((ih hc₁ hrest).mpr ⟨c', h⟩)
    | var d =>
      have hds : (Decl.var d :: ds).filterMap Decl.function? = ds.filterMap Decl.function? := rfl
      rw [hds] at hc hmem
      simp only [checkDecls, CheckM.passes_bind fun _ => grows_checkDecls _ ds]
      constructor
      · intro h
        cases h with
        | var declares rest =>
          obtain ⟨c₁, hpasses, hc₁⟩ := global_passes_of_declares hfs hc declares
          obtain ⟨c', h⟩ := (ih hc₁ hmem).mp rest
          exact ⟨c', (), c₁, hpasses, h⟩
      · rintro ⟨c', _, c₁, hpasses, h⟩
        obtain ⟨G', declares, hc₁⟩ := declares_of_global_passes hfs hc hpasses
        exact .var declares ((ih hc₁ hmem).mpr ⟨c', h⟩)
    | unsupported =>
      refine ⟨fun h => (nomatch h), fun ⟨c', h, _⟩ => ?_⟩
      cases h

end Checking

end Sema
