import Sema.Proofs.Checking.Records
import Sema.Proofs.Checking.Summary

/-!
# The two walks over the head of a function

The head of a function is walked twice: when the function is registered, where the names of the
parameters before are remembered, and when the function is entered, where they are bound in its
frame. Both walks over the parameters find the same (`boundFindings_perm`), and the parameters that
repeat a name in the same order (`repeated_paramFindings`, `repeated_boundFindings`). So entering a
function reports nothing that its registration has not reported, and binds the name of each
parameter to the first one of that name (`ofProgram_enters`).
-/

namespace Sema

/-! ## Findings -/

def typeFindings (name : Option String) (loc : Location) : List Finding :=
  match Ty.resolve name with
  | .ok _ => []
  | .error e => [.violation (.undefinedType e) loc]

/-- What a parameter finds if its name is one of those before it. -/
def Param.repeatFindings (func : String) (seen : List String) (p : Param) : List Finding :=
  if p.name ∈ seen then [.violation (.duplicateParameter p.name func) p.loc] else []

/-- What the walk finds that remembers the names of the parameters before. -/
def paramFindings (func : String) : List String → List Param → List Finding
  | _, [] => []
  | seen, p :: ps =>
    p.repeatFindings func seen ++ (typeFindings p.type p.loc ++
      paramFindings func (p.name :: seen) ps)

def boundFindings (func : String) : List String → List Param → List Finding
  | _, [] => []
  | seen, p :: ps =>
    typeFindings p.type p.loc ++ (p.repeatFindings func seen ++
      boundFindings func (p.name :: seen) ps)

/-- The parameter that a finding reports to repeat a name, with its place. -/
def Finding.repeated? : Finding → Option (String × Location)
  | .violation (.duplicateParameter param _) loc => some (param, loc)
  | _ => none

def Outcome.repeated {α : Type} (outcome : Outcome α) : List (String × Location) :=
  outcome.findings.filterMap Finding.repeated?

def Param.placed (p : Param) : String × Location :=
  (p.name, p.loc)

section findings

variable (func : String) (seen : List String) (ps : List Param)

/-- Both walks over parameters find the same. -/
theorem boundFindings_perm : (boundFindings func seen ps).Perm (paramFindings func seen ps) := by
  induction ps generalizing seen with
  | nil => exact .refl _
  | cons p ps ih =>
    rw [boundFindings, paramFindings, ← List.append_assoc, ← List.append_assoc]
    exact List.perm_append_comm.append (ih _)

theorem repeated_typeFindings (name : Option String) (loc : Location) :
    (typeFindings name loc).filterMap Finding.repeated? = [] := by
  unfold typeFindings
  cases Ty.resolve name <;> rfl

theorem repeated_repeatFindings (p : Param) :
    (p.repeatFindings func seen).filterMap Finding.repeated? =
      (if p.name ∈ seen then [p] else []).map Param.placed := by
  unfold Param.repeatFindings
  split <;> rfl

/-- The first walk finds the parameters that repeat a name, in order. -/
theorem repeated_paramFindings :
    (paramFindings func seen ps).filterMap Finding.repeated? =
      (repeats (·.name) seen ps).map Param.placed := by
  induction ps generalizing seen with
  | nil => rfl
  | cons p ps ih =>
    rw [paramFindings, repeats, List.filterMap_append, List.filterMap_append,
      repeated_typeFindings, repeated_repeatFindings, ih, List.nil_append, List.map_append]

/-- The second walk finds the same ones in the same order. -/
theorem repeated_boundFindings :
    (boundFindings func seen ps).filterMap Finding.repeated? =
      (repeats (·.name) seen ps).map Param.placed := by
  induction ps generalizing seen with
  | nil => rfl
  | cons p ps ih =>
    rw [boundFindings, repeats, List.filterMap_append, List.filterMap_append,
      repeated_typeFindings, repeated_repeatFindings, ih, List.nil_append, List.map_append]

end findings

/-! ## Walks -/

namespace Walk

variable {env : Env} {s : ScopeStack}

theorem gives_resolveType (name : Option String) (loc : Location) :
    (resolveType name loc).Gives env s (typeFindings name loc) (Ty.named name) s := by
  unfold resolveType typeFindings Ty.named
  cases Ty.resolve name <;> rfl

theorem gives_reportIf (broken : Bool) (v : Violation) (loc : Location) :
    (reportIf broken v loc).Gives env s (if broken then [.violation v loc] else []) () s := by
  cases broken <;> rfl

variable (env) in
theorem gives_declare_innermost {F : Scope} {rest : List Scope} (hs : s.frames = F :: rest)
    (symbol : Symbol) :
    ∃ s' F', (declare symbol).Gives env s [] (!(F.lookup symbol.name).isSome) s' ∧
      s'.frames = F' :: rest ∧
      ∀ x, F'.lookup x = (F.lookup x).or (if symbol.name = x then some symbol else none) := by
  obtain ⟨rest', hs'⟩ := s.exists_frames
  obtain ⟨rfl, rfl⟩ := List.cons.inj (hs.symm.trans hs')
  cases hl : s.innermost.lookup symbol.name with
  | none =>
    obtain ⟨s', hok, hframes⟩ := ScopeStack.declare_of_lookup_eq_none hs' hl symbol
    refine ⟨s', _, gives_declare.mpr ⟨.inl ⟨hok, rfl⟩, rfl⟩, hframes, fun x => ?_⟩
    by_cases hx : x = symbol.name
    · subst hx
      simp [hl]
    · simp [List.lookup_cons, beq_false_of_ne hx, Ne.symm hx]
  | some existing =>
    have herror : ∃ e, s.declare symbol.name symbol = .error e :=
      ⟨_, ScopeStack.declare_eq_error_iff.mpr ⟨existing, hl, rfl⟩⟩
    refine ⟨s, _, gives_declare.mpr ⟨.inr ⟨herror, rfl, rfl⟩, rfl⟩, hs', fun x => ?_⟩
    by_cases hx : symbol.name = x
    · subst hx
      simp [hl]
    · simp [hx]

end Walk

namespace Checking

open Walk

variable {env : Env} {s : ScopeStack} {func : String} {seen : List String} {ps : List Param}

theorem gives_paramSymbols :
    (paramSymbols func seen ps).Gives env s (paramFindings func seen ps) (ps.map Param.symbol)
      s := by
  induction ps generalizing seen with
  | nil => exact gives_pure.mpr ⟨rfl, rfl, rfl⟩
  | cons p ps ih =>
    have hrepeat : p.repeatFindings func seen = if seen.contains p.name then
        [.violation (.duplicateParameter p.name func) p.loc] else [] := by
      simp [Param.repeatFindings]
    rw [paramSymbols, paramFindings, hrepeat]
    refine gives_bind.mpr ⟨_, (), s, _, gives_reportIf _ _ _, ?_, rfl⟩
    refine gives_bind.mpr ⟨_, _, s, _, gives_resolveType _ _, ?_, rfl⟩
    refine gives_bind.mpr ⟨_, _, s, [], ih, ?_, (List.append_nil _).symm⟩
    exact gives_pure.mpr ⟨rfl, rfl, rfl⟩

variable (env func seen ps) in
/-- In a frame that binds the names `seen`, the parameters find what they find after these names,
and the frame then binds the new names to the first parameters that have them. -/
theorem gives_bindParams {F : Scope} {rest : List Scope} (hs : s.frames = F :: rest)
    (hseen : ∀ x, x ∈ seen ↔ (F.lookup x).isSome = true) :
    ∃ s' F', (bindParams func ps).Gives env s (boundFindings func seen ps) () s' ∧
      s'.frames = F' :: rest ∧
      ∀ x, F'.lookup x = (F.lookup x).or ((ps.find? (·.name == x)).map Param.symbol) := by
  induction ps generalizing s F seen with
  | nil => exact ⟨s, F, gives_pure.mpr ⟨rfl, rfl, rfl⟩, hs, by simp⟩
  | cons p ps ih =>
    obtain ⟨s₁, F₁, hdeclare, hs₁, hF₁⟩ := gives_declare_innermost env hs p.symbol
    have hname : p.symbol.name = p.name := rfl
    rw [hname] at hdeclare hF₁
    have hseen₁ : ∀ x, x ∈ p.name :: seen ↔ (F₁.lookup x).isSome = true := by
      intro x
      rw [List.mem_cons, hseen, hF₁, Option.isSome_or, Bool.or_eq_true, or_comm, @eq_comm _ x]
      refine or_congr_right ?_
      split <;> simp [*]
    obtain ⟨s', F', hrest, hs', hF'⟩ := ih _ hs₁ hseen₁
    have hrepeat : p.repeatFindings func seen = if !!(F.lookup p.name).isSome then
        [.violation (.duplicateParameter p.name func) p.loc] else [] := by
      simp only [Param.repeatFindings, hseen, Bool.not_not]
    refine ⟨s', F', ?_, hs', fun x => ?_⟩
    · rw [bindParams, boundFindings, hrepeat]
      refine gives_bind.mpr ⟨_, _, s, _, gives_resolveType _ _, ?_, rfl⟩
      refine gives_bind.mpr ⟨[], _, s₁, _, hdeclare, ?_, rfl⟩
      exact gives_bind.mpr ⟨_, (), s₁, _, gives_reportIf _ _ _, hrest, rfl⟩
    · rw [hF', hF₁, Option.or_assoc]
      by_cases hx : p.name = x
      · simp [hx]
      · simp [hx]

end Checking

/-! ## Walks one after another -/

namespace Checker

variable (c : Checker)

theorem env_absorbed (fs : List Finding) : (fs.foldl absorb c).env = c.env := by
  have hcallees : (fs.foldl absorb c).env.callee? = c.env.callee? := by
    funext name
    show ((fs.foldl absorb c).functions.find? name).map _ = (c.functions.find? name).map _
    rw [FunctionTable.find?_signature, FunctionTable.find?_signature, (absorbed_frame c fs).2.2]
  have hcaller : (fs.foldl absorb c).env.caller = c.env.caller := by
    show (fs.foldl absorb c).function?.map _ = c.function?.map _
    rw [absorbed_function?, Option.map_map]
    congr 1
    funext f
    have hcaller := congrArg FunctionSymbol.caller (FunctionSymbol.head_foldl_note f fs)
    exact hcaller
  exact congrArg₂ Env.mk hcallees hcaller

end Checker

namespace CheckM

theorem walk_bind {α β : Type} (w : Walk α) (f : α → Walk β) :
    walk (w >>= f) = (walk w >>= fun a => walk (f a)) := by
  funext c
  show (walk (w >>= f)).run c = (walk w >>= fun a => walk (f a)).run c
  let outcome := w c.env c.scopes
  have hwalk : (walk w).run c =
      (outcome.value, outcome.findings.foldl Checker.absorb { c with scopes := outcome.scopes }) :=
    rfl
  rw [run_bind, hwalk]
  cases h : outcome.value with
  | error e =>
    show (((w >>= f) c.env c.scopes).value, _) = _
    rw [Walk.bind_apply_of_error h]
  | ok a =>
    show (((w >>= f) c.env c.scopes).value, _) = _
    rw [Walk.bind_apply_of_ok h, List.foldl_append]
    show _ = ((f a _ _).value, _)
    rw [Checker.env_absorbed, (Checker.absorbed_frame _ _).1]
    simp only [Checker.absorbed_scopes]
    rfl

end CheckM

/-! ## Reports of heads -/

theorem filterMap_typeFindings (name : Option String) (loc : Location) :
    (typeFindings name loc).filterMap Finding.diagnostic? = typeReports name loc := by
  unfold typeFindings typeReports
  cases Ty.resolve name <;> rfl

theorem filterMap_paramFindings (func : String) (seen : List String) (ps : List Param) :
    (paramFindings func seen ps).filterMap Finding.diagnostic? = paramReports func seen ps := by
  induction ps generalizing seen with
  | nil => rfl
  | cons p ps ih =>
    rw [paramFindings, paramReports, List.filterMap_append, List.filterMap_append, ih,
      filterMap_typeFindings, Param.repeatFindings]
    by_cases h : p.name ∈ seen <;> simp [h, Finding.diagnostic?]

theorem mem_paramReports_iff {func : String} {ps : List Param} {d : Diagnostic} :
    d ∈ (boundFindings func [] ps).filterMap Finding.diagnostic? ↔ d ∈ paramReports func [] ps := by
  rw [← filterMap_paramFindings]
  exact ((boundFindings_perm func [] ps).filterMap _).mem_iff

/-! ## Entering a function -/

namespace Recorded

open CheckM

def setFunction (f : FunctionDef) (registered : Bool) : Recorded Unit :=
  if registered then setCurrent (.entry f.name)
  else do
    let type ← walk (Walk.resolveType f.returnType f.loc)
    setCurrent (.detached (f.symbol type []))

/-- The walk over a function up to the first statement of its body. -/
def enterFunction (f : FunctionDef) (registered : Bool) : Recorded Unit := do
  setFunction f registered
  walk Walk.push
  walk (Checking.bindParams f.name f.params)

theorem gives_setFunction (f : FunctionDef) (registered : Bool) (c : Checker) :
    ∃ c', (setFunction f registered).step.Gives c () c' ∧ c'.scopes = c.scopes ∧
      (setFunction f registered).filed c =
        if registered then [] else typeReports f.returnType f.loc := by
  cases registered with
  | true => exact ⟨{ c with current := .entry f.name }, rfl, rfl, rfl⟩
  | false =>
    have htype := Walk.reports_resolveType f.returnType f.loc
    have hwalk : (walk (Walk.resolveType f.returnType f.loc)).step.Gives c _ _ :=
      (gives_walk_reports htype).mpr ⟨rfl, rfl⟩
    refine ⟨_, gives_bind.mpr ⟨_, _, hwalk, gives_setCurrent.mpr rfl⟩, rfl, ?_⟩
    show (walk (Walk.resolveType f.returnType f.loc) >>= fun type =>
      setCurrent (.detached (f.symbol type []))).filed c = _
    rw [filed_bind_of_gives hwalk, filed_walk_of_reports htype]
    exact List.append_nil _

/-- A function can be entered from any checker. It files what its parameters find, and the type of
a function that is not registered; its parameters are bound in a frame of their own. -/
theorem gives_enterFunction (f : FunctionDef) (registered : Bool) (c : Checker) :
    ∃ c' F, (enterFunction f registered).step.Gives c () c' ∧
      (enterFunction f registered).filed c =
        (if registered then [] else typeReports f.returnType f.loc) ++
          (boundFindings f.name [] f.params).filterMap Finding.diagnostic? ∧
      c'.scopes.frames = F :: c.scopes.frames ∧
      ∀ x, F.lookup x = (f.params.find? (·.name == x)).map Param.symbol := by
  obtain ⟨c₁, hset, hscopes, hfiled⟩ := gives_setFunction f registered c
  have hpush : (walk Walk.push).step.Gives c₁ () { c₁ with scopes := c₁.scopes.push } :=
    gives_walk.mpr ⟨[], _, Walk.gives_push.mpr ⟨rfl, rfl⟩, rfl⟩
  let c₂ : Checker := { c₁ with scopes := c₁.scopes.push }
  obtain ⟨s, F, hbind, hframes, hF⟩ := Checking.gives_bindParams c₂.env f.name [] f.params
    (ScopeStack.frames_push c₁.scopes) (by simp)
  refine ⟨_, F, gives_bind.mpr ⟨(), c₁, hset, gives_bind.mpr ⟨(), c₂, hpush,
    gives_walk.mpr ⟨_, s, hbind, rfl⟩⟩⟩, ?_, ?_, hF⟩
  · rw [enterFunction, filed_bind_of_gives hset, hfiled, filed_bind_of_gives hpush,
      filed_walk_of_gives hbind]
    rfl
  · rw [(Checker.absorbed_frame _ _).1, hframes, hscopes]

end Recorded

namespace Checking

open CheckM (walk setCurrent)

/-- The walk over a function from the first statement of its body on. -/
def finishFunction (f : FunctionDef) : CheckM Unit := do
  walk (checkStmts f.body.statements)
  checkReturns f
  walk Walk.pop
  setCurrent .nowhere

theorem checkFunction_eq (f : FunctionDef) (registered : Bool) :
    checkFunction f registered =
      (Recorded.enterFunction f registered).step >>= fun _ => finishFunction f := by
  have hbody : walk (checkBody f) = (walk Walk.push >>= fun _ =>
      walk (bindParams f.name f.params) >>= fun _ => walk (checkStmts f.body.statements)) := by
    rw [checkBody, CheckM.walk_bind]
    exact congrArg _ (funext fun _ => CheckM.walk_bind _ _)
  cases registered <;>
    simp only [checkFunction, Recorded.enterFunction, Recorded.setFunction, finishFunction, hbody,
      Recorded.step_bind, Recorded.step_walk, Recorded.step_setCurrent, bind_assoc, if_true,
      if_false, Bool.false_eq_true]

def takenAfter (taken : List String) (ds : List Decl) : List String :=
  ((ds.filterMap Decl.function?).map (·.name)).reverse ++ taken

theorem checkDecls_append (taken : List String) (ds es : List Decl) :
    checkDecls taken (ds ++ es) =
      checkDecls taken ds >>= fun _ => checkDecls (takenAfter taken ds) es := by
  induction ds generalizing taken with
  | nil => rfl
  | cons d ds ih =>
    cases d with
    | func f =>
      have htaken : takenAfter taken (.func f :: ds) = takenAfter (f.name :: taken) ds := by
        simp [takenAfter, Decl.function?]
      rw [List.cons_append, checkDecls, checkDecls, bind_assoc, ih, htaken]
    | var d =>
      have htaken : takenAfter taken (.var d :: ds) = takenAfter taken ds := rfl
      rw [List.cons_append, checkDecls, checkDecls, bind_assoc, ih, htaken]
    | unsupported => rfl

end Checking

/-! ## Programs -/

/-- Whether a function is registered that comes after the given declarations. -/
def FunctionDef.isRegistered (f : FunctionDef) (before : List Decl) : Bool :=
  !(Checking.takenAfter [] before).contains f.name

/-- The check of a program that shows `checked` gets to the function `f` between other declarations:
it leaves `c₀` after the registration of all functions, `c₁` before the function and `c₂` when the
function has been entered. -/
structure Enters (before after : List Decl) (f : FunctionDef) (checked : Checked)
    (c₀ c₁ c₂ : Checker) : Prop where
  registered : (Checking.registerFunctions
    (Program.mk (before ++ .func f :: after)).functions).Gives Checker.empty () c₀
  reached : (Checking.checkDecls [] before).Gives c₀ () c₁
  entered : (Recorded.enterFunction f (f.isRegistered before)).step.Gives c₁ () c₂
  finished : ∃ c₃, (do
      Checking.finishFunction f
      Checking.checkDecls (f.name :: Checking.takenAfter [] before) after
      Checking.checkMain : CheckM Unit).Gives c₂ () c₃ ∧
    checked = ⟨c₃.functions, c₃.globals, c₃.sink.items⟩

theorem exists_enters {before after : List Decl} {f : FunctionDef} {checked : Checked}
    (hp : Checked.ofProgram ⟨before ++ .func f :: after⟩ = .ok checked) :
    ∃ c₀ c₁ c₂, Enters before after f checked c₀ c₁ c₂ := by
  have hrun : ∃ c₃, (Checking.checkProgram ⟨before ++ .func f :: after⟩).Gives Checker.empty () c₃ ∧
      checked = ⟨c₃.functions, c₃.globals, c₃.sink.items⟩ := by
    rw [Checked.ofProgram] at hp
    split at hp
    · next c₃ hrun => exact ⟨c₃, hrun, (Except.ok.inj hp).symm⟩
    · cases hp
  obtain ⟨c₃, hrun, hchecked⟩ := hrun
  rw [Checking.checkProgram, CheckM.gives_get_bind] at hrun
  obtain ⟨_, c₀, hregistered, hrun⟩ := CheckM.gives_bind.mp hrun
  rw [Checking.checkDecls_append, bind_assoc, Checking.checkDecls, Checking.checkFunction_eq] at hrun
  obtain ⟨_, c₁, hreached, hrun⟩ := CheckM.gives_bind.mp hrun
  simp only [bind_assoc] at hrun
  obtain ⟨_, c₂, hentered, hrun⟩ := CheckM.gives_bind.mp hrun
  exact ⟨c₀, c₁, c₂, hregistered, hreached, hentered, c₃, hrun, hchecked⟩

theorem mem_filed_registerFunctions {fs : List FunctionDef} {f : FunctionDef} (hf : f ∈ fs)
    {registered : Bool} {c : Checker} (c' : Checker) {d : Diagnostic}
    (hd : d ∈ (Recorded.enterFunction f registered).filed c) :
    d ∈ (Recorded.registerFunctions fs).filed c' := by
  obtain ⟨_, _, _, hfiled, -, -⟩ := Recorded.gives_enterFunction f registered c
  rw [Recorded.filed_registerFunctions, mem_registrationReports]
  refine .inl ⟨f, hf, ?_⟩
  rw [hfiled, List.mem_append] at hd
  rw [FunctionDef.headReports, List.mem_append]
  rcases hd with hd | hd
  · cases registered with
    | true => cases hd
    | false => exact .inl hd
  · exact .inr (mem_paramReports_iff.mp hd)

namespace Enters

variable {before after : List Decl} {f : FunctionDef} {checked : Checked} {c₀ c₁ c₂ : Checker}

theorem sink_registered (h : Enters before after f checked c₀ c₁ c₂) :
    c₀.sink = Sink.empty.extend ((Recorded.registerFunctions
      (Program.mk (before ++ .func f :: after)).functions).filed Checker.empty) := by
  have hsink := (Recorded.registerFunctions
    (Program.mk (before ++ .func f :: after)).functions).sink_run Checker.empty
  rw [Recorded.step_registerFunctions, show _ = _ from h.registered] at hsink
  exact hsink

theorem seen_reached (h : Enters before after f checked c₀ c₁ c₂) {text : String}
    (htext : text ∈ c₀.sink.seen) : text ∈ c₁.sink.seen := by
  have hsink := (Recorded.checkDecls [] before).sink_run c₀
  rw [Recorded.step_checkDecls, show _ = _ from h.reached] at hsink
  rw [show c₁.sink = _ from hsink, Sink.mem_seen_extend]
  exact .inl htext

theorem sink_entered (h : Enters before after f checked c₀ c₁ c₂) :
    c₂.sink = c₁.sink.extend ((Recorded.enterFunction f (f.isRegistered before)).filed c₁) := by
  have hsink := (Recorded.enterFunction f (f.isRegistered before)).sink_run c₁
  rw [show _ = _ from h.entered] at hsink
  exact hsink

theorem scopes_entered (h : Enters before after f checked c₀ c₁ c₂) :
    c₂.scopes.pop = .ok c₁.scopes ∧
      ∀ x, c₂.scopes.resolve x =
        ((f.params.find? (·.name == x)).map Param.symbol).or (c₁.scopes.resolve x) := by
  obtain ⟨c, F, hc, -, hframes, hF⟩ := Recorded.gives_enterFunction f (f.isRegistered before) c₁
  have hsame : (Except.ok (), c₂) = (Except.ok (), c) := h.entered.symm.trans hc
  obtain rfl := (Prod.mk.inj hsame).2
  refine ⟨ScopeStack.pop_of_tail_frames (by rw [hframes, List.tail_cons]), fun x => ?_⟩
  show c₂.scopes.frames.findSome? (·.lookup x) = _
  rw [hframes, List.findSome?_cons, hF]
  cases (f.params.find? (·.name == x)).map Param.symbol <;> rfl

end Enters

/-- In a check that succeeds, entering a function reports nothing that the registration of the
functions has not reported before. The same parameters are found to repeat a name, each time those
whose name comes before them; and each name of a parameter then stands for the first one. -/
theorem ofProgram_enters {p : Program} {checked : Checked} {before after : List Decl}
    {f : FunctionDef} (hp : Checked.ofProgram p = .ok checked)
    (hf : p.declarations = before ++ .func f :: after) :
    ∃ c₀ c₁ c₂, Enters before after f checked c₀ c₁ c₂ ∧
      (∀ d ∈ (Recorded.enterFunction f (f.isRegistered before)).filed c₁,
        d ∈ (Recorded.registerFunctions p.functions).filed Checker.empty ∧
          d.render ∈ c₀.sink.items.map Diagnostic.render) ∧
      c₂.sink = c₁.sink ∧
      (∀ env s,
        (Checking.paramSymbols f.name [] f.params env s).repeated =
            (Checking.bindParams f.name f.params env s.push).repeated ∧
          (Checking.bindParams f.name f.params env s.push).repeated =
            (repeats (·.name) [] f.params).map Param.placed) ∧
      c₂.scopes.pop = .ok c₁.scopes ∧
      ∀ x, c₂.scopes.resolve x =
        ((f.params.find? (·.name == x)).map Param.symbol).or (c₁.scopes.resolve x) := by
  obtain ⟨declarations⟩ := p
  obtain rfl : declarations = before ++ .func f :: after := hf
  obtain ⟨c₀, c₁, c₂, h⟩ := exists_enters hp
  have hmem : f ∈ (Program.mk (before ++ .func f :: after)).functions := by
    simp [Program.functions, Decl.function?]
  have hfiled : ∀ d ∈ (Recorded.enterFunction f (f.isRegistered before)).filed c₁, d ∈ _ :=
    fun d hd => mem_filed_registerFunctions hmem Checker.empty hd
  refine ⟨c₀, c₁, c₂, h, fun d hd => ⟨hfiled d hd, ?_⟩, ?_, fun env s => ?_, h.scopes_entered⟩
  · rw [h.sink_registered, Sink.mem_texts_iff]
    exact List.mem_map_of_mem (hfiled d hd)
  · rw [h.sink_entered]
    refine Sink.extend_of_mem_seen fun d hd => h.seen_reached ?_
    rw [h.sink_registered, Sink.mem_seen_extend]
    exact .inr (List.mem_map_of_mem (hfiled d hd))
  · obtain ⟨_, _, hbind, -, -⟩ := Checking.gives_bindParams env f.name [] f.params s.frames_push
      (by simp)
    rw [Outcome.repeated, Outcome.repeated, show _ = _ from hbind,
      show _ = _ from Checking.gives_paramSymbols, repeated_paramFindings, repeated_boundFindings]
    exact ⟨rfl, rfl⟩

namespace Diving

/-- A second entry point, where a parameter repeats a name and another one lacks a type:
```
void main(int n,
  float n, what depth) { }
```
-/
def crowded : FunctionDef where
  loc := place 6
  name := "main"
  params := [⟨place 6, "n", some "int"⟩, ⟨place 7, "n", some "float"⟩,
    ⟨place 7, "depth", some "what"⟩]
  returnType := some "void"
  body := .mk (place 7) []

/-- The walk over the second entry point reports nothing new, and `n` is the first parameter. -/
theorem program_enters :
    ∃ checked c₀ c₁ c₂,
      Enters [.var (depth 1), .func entry, .func dive] [.var (depth 5)] crowded checked c₀ c₁ c₂ ∧
        c₂.sink = c₁.sink ∧
        c₂.scopes.resolve "n" = some { name := "n", type := .int, line := 6 } ∧
        c₂.scopes.resolve "depth" = some { name := "depth", type := .unknown, line := 7 } := by
  have hok : (Checked.ofProgram (program [entry, dive, crowded])).toOption.isSome = true := by
    decide +kernel
  cases hp : Checked.ofProgram (program [entry, dive, crowded]) with
  | error e =>
    rw [hp] at hok
    cases hok
  | ok checked =>
    have hdeclarations : (program [entry, dive, crowded]).declarations =
        [.var (depth 1), .func entry, .func dive] ++ .func crowded :: [.var (depth 5)] := rfl
    obtain ⟨c₀, c₁, c₂, henters, -, hsink, -, -, hresolve⟩ := ofProgram_enters hp hdeclarations
    refine ⟨checked, c₀, c₁, c₂, henters, hsink, ?_, ?_⟩
    · rw [hresolve]
      rfl
    · rw [hresolve]
      rfl

end Diving

end Sema
