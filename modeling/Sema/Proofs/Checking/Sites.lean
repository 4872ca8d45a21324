import Sema.Proofs.Checking.Runs

/-!
# Declarations by themselves

A declaration is walked at its site (`Site`): in the global frame that the declarations before it
leave, and with the signatures of the program. What a function does to the checker is what its walk
at its site does (`checkFunction_gives_iff`), and the check of declarations puts these walks together
(`checkDecls_gives_iff`): a function is shown by its first definition, and a global variable by its
first declaration.
-/

namespace Sema

/-! ## Sites -/

def VarDecl.symbol (d : VarDecl) : Symbol :=
  Checking.declaredSymbol d (Ty.named d.type)

def FunctionDef.caller (f : FunctionDef) : Caller :=
  ⟨f.name, Ty.named f.returnType⟩

/-- What a function reports whose walk found `findings` and no `return`. -/
def FunctionDef.returnReports (f : FunctionDef) (findings : List Finding) : List Diagnostic :=
  if Ty.named f.returnType ≠ .void ∧ .returned ∉ findings then
    [(Violation.missingReturn f.name (Ty.named f.returnType)).located f.loc]
  else []

namespace Decl

/-- The function that the walk over a declaration is in. -/
def caller? : Decl → Option Caller
  | .func f => some f.caller
  | _ => none

def walk : Decl → Walk Unit
  | .func f => Checking.checkBody f
  | .var d => Checking.checkVarDecl .global d
  | .unsupported => Walk.fail .unsupportedDeclaration

def returnReports : Decl → List Finding → List Diagnostic
  | .func f, findings => f.returnReports findings
  | _, _ => []

/-- Besides its findings, a declaration reports nothing but that it is a function without a
`return`. -/
theorem exists_of_mem_returnReports {decl : Decl} {findings : List Finding} {d : Diagnostic}
    (h : d ∈ decl.returnReports findings) :
    ∃ f, decl = .func f ∧
      d = (Violation.missingReturn f.name (Ty.named f.returnType)).located f.loc := by
  cases decl with
  | func f =>
    simp only [returnReports, FunctionDef.returnReports] at h
    split at h
    · exact ⟨f, rfl, List.mem_singleton.mp h⟩
    · cases h
  | _ => cases h

/-- The global variables that a declaration adds to those of `G`: the first one of a name. -/
def adds (G : Scope) : Decl → List Symbol
  | .var d => if (G.lookup d.name).isSome then [] else [d.symbol]
  | _ => []

def after (G : Scope) (d : Decl) : Scope :=
  (d.adds G).map (fun symbol => (symbol.name, symbol)) ++ G

end Decl

/-- A declaration and the global frame in which it stands. -/
structure Site where
  globals : Scope
  decl : Decl

/-- The sites of declarations that follow on the global frame `G`. -/
def sites : Scope → List Decl → List Site
  | _, [] => []
  | G, d :: ds => ⟨G, d⟩ :: sites (d.after G) ds

namespace Site

variable (callee? : String → Option Signature)

/-- What the walk over a declaration leaves, with the given signatures. -/
def walked (site : Site) : Outcome Unit :=
  site.decl.walk ⟨callee?, site.decl.caller?⟩ ⟨[], site.globals⟩

def Walks (site : Site) : Prop :=
  (site.walked callee?).value = .ok ()

theorem walks_iff {callee? : String → Option Signature} {site : Site} :
    site.Walks callee? ↔ ∃ s' fs, site.walked callee? = ⟨s', fs, .ok ()⟩ := by
  constructor
  · intro h
    exact ⟨_, _, congrArg (Outcome.mk _ _) h⟩
  · rintro ⟨s', fs, h⟩
    rw [Walks, h]

def reports (site : Site) : List Diagnostic :=
  (site.walked callee?).findings.filterMap Finding.diagnostic? ++
    site.decl.returnReports (site.walked callee?).findings

def adds (site : Site) : List Symbol :=
  site.decl.adds site.globals

/-- The function at a site, with the global frame in which it stands. -/
def function? (site : Site) : Option (Scope × FunctionDef) :=
  site.decl.function?.map (site.globals, ·)

end Site

/-- A function with all that its body shows in the global frame `G`. -/
def FunctionDef.shown (callee? : String → Option Signature) (G : Scope) (f : FunctionDef) :
    FunctionSymbol :=
  ((Site.mk G (.func f)).walked callee?).findings.foldl FunctionSymbol.note f.entry.2

/-- The entry of a function in the table that a check shows. -/
def shownEntry (callee? : String → Option Signature) (site : Scope × FunctionDef) :
    String × FunctionSymbol :=
  (site.2.name, site.2.shown callee? site.1)

/-- The functions of declarations, with the global frames in which they stand. -/
def functionSites (G : Scope) (ds : List Decl) : List (Scope × FunctionDef) :=
  (sites G ds).filterMap Site.function?

theorem sites_append (G : Scope) (ds es : List Decl) :
    sites G (ds ++ es) = sites G ds ++ sites (ds.foldl Decl.after G) es := by
  induction ds generalizing G with
  | nil => rfl
  | cons d ds ih => exact congrArg (_ :: ·) (ih _)

theorem functionSites_append (G : Scope) (ds es : List Decl) :
    functionSites G (ds ++ es) = functionSites G ds ++ functionSites (ds.foldl Decl.after G) es := by
  rw [functionSites, sites_append, List.filterMap_append]
  rfl

theorem mem_sites_of_mem_functionSites {G G' : Scope} {ds : List Decl} {f : FunctionDef}
    (h : (G', f) ∈ functionSites G ds) : ⟨G', .func f⟩ ∈ sites G ds := by
  obtain ⟨⟨G₁, d⟩, hsite, hfunction⟩ := List.mem_filterMap.mp h
  cases d with
  | func f' =>
    cases hfunction
    exact hsite
  | _ => cases hfunction

/-- What the declarations report; `taken` holds the names of the functions before them. The type of
a function that is not the first of its name is resolved once more. -/
def declReports (callee? : String → Option Signature) :
    List String → Scope → List Decl → List Diagnostic
  | _, _, [] => []
  | taken, G, d@(.func f) :: ds =>
    ((if f.name ∈ taken then typeReports f.returnType f.loc else []) ++
      (Site.mk G d).reports callee?) ++ declReports callee? (f.name :: taken) G ds
  | taken, G, d :: ds => (Site.mk G d).reports callee? ++ declReports callee? taken (d.after G) ds

/-! ## Heads -/

def FunctionSymbol.head (f : FunctionSymbol) : FunctionSymbol :=
  { f with locals := [], controls := [], isRecursive := false, hasReturn := false }

namespace FunctionSymbol

theorem head_note (f : FunctionSymbol) (finding : Finding) : (f.note finding).head = f.head := by
  cases finding <;> rfl

theorem head_foldl_note (f : FunctionSymbol) (fs : List Finding) :
    (fs.foldl note f).head = f.head := by
  induction fs generalizing f with
  | nil => rfl
  | cons finding fs ih => rw [List.foldl_cons, ih, head_note]

theorem eq_of_head_eq {f f' : FunctionSymbol} (h : f'.head = f.head) :
    f' = { f with
      locals := f'.locals, controls := f'.controls, isRecursive := f'.isRecursive,
      hasReturn := f'.hasReturn } := by
  obtain ⟨⟩ := f
  obtain ⟨⟩ := f'
  simp_all [head]

end FunctionSymbol

theorem FunctionDef.head_shown (callee? : String → Option Signature) (G : Scope) (f : FunctionDef) :
    (f.shown callee? G).head = f.entry.2 :=
  FunctionSymbol.head_foldl_note f.entry.2 _

/-! ## The table between declarations -/

namespace FunctionTable

variable {before after : List (String × FunctionSymbol)} {key : String} {f : FunctionSymbol}

theorem find?_between (h : key ∉ before.map Prod.fst) :
    (⟨before ++ (key, f) :: after⟩ : FunctionTable).find? key = some f := by
  rw [find?, List.lookup_append, List.lookup_eq_none_iff.mpr, List.lookup_cons_self, Option.none_or]
  intro e he
  exact bne_iff_ne.mpr fun hkey => h (List.mem_map.mpr ⟨e, he, hkey.symm⟩)

theorem entries_modify_of_not_mem {l : List (String × FunctionSymbol)} (h : key ∉ l.map Prod.fst)
    (g : FunctionSymbol → FunctionSymbol) : ((⟨l⟩ : FunctionTable).modify key g).entries = l := by
  refine (List.map_congr_left fun e he => ?_).trans (List.map_id l)
  exact if_neg fun hkey => h (List.mem_map.mpr ⟨e, he, hkey⟩)

theorem modify_between (hbefore : key ∉ before.map Prod.fst) (hafter : key ∉ after.map Prod.fst)
    (g : FunctionSymbol → FunctionSymbol) :
    (⟨before ++ (key, f) :: after⟩ : FunctionTable).modify key g =
      ⟨before ++ (key, g f) :: after⟩ := by
  have hkept := entries_modify_of_not_mem hbefore g
  have hkept' := entries_modify_of_not_mem hafter g
  simp only [modify] at hkept hkept'
  rw [modify, List.map_append, List.map_cons, hkept, hkept']
  simp only [if_true]

end FunctionTable

namespace Checker

variable (c : Checker)

theorem absorbed_scopes (s : ScopeStack) (fs : List Finding) :
    fs.foldl absorb { c with scopes := s } = { fs.foldl absorb c with scopes := s } := by
  induction fs generalizing c with
  | nil => rfl
  | cons finding fs ih =>
    have hstep : ({ c with scopes := s } : Checker).absorb finding =
        { c.absorb finding with scopes := s } := by
      obtain ⟨_, _, _, _, current⟩ := c
      cases current <;> cases finding <;> rfl
    rw [List.foldl_cons, List.foldl_cons, hstep, ih]

theorem absorbed_function? (fs : List Finding) :
    (fs.foldl absorb c).function? =
      c.function?.map fun symbol => fs.foldl FunctionSymbol.note symbol := by
  cases h : c.current with
  | nowhere => simp only [absorbed_nowhere c h, function?, h, Option.map_none]
  | entry key =>
    simp only [absorbed_entry c h, function?, h, FunctionTable.find?_modify, if_true]
  | detached f => simp only [absorbed_detached c h, function?, h, Option.map_some]

/-- The checker stands between two declarations, in the global frame `G` and with the given
signatures. -/
structure Between (callee? : String → Option Signature) (G : Scope) : Prop where
  scopes : c.scopes = ⟨[], G⟩
  current : c.current = .nowhere
  callees : c.env.callee? = callee?

end Checker

/-! ## Functions -/

namespace Checking

open CheckM (walk setCurrent)

variable {c c' : Checker} {callee? : String → Option Signature} {G : Scope} {f : FunctionDef}
  {u : Unit}

theorem leave_gives_iff {s : ScopeStack} (hpop : c.scopes.pop = .ok s) :
    (do walk Walk.pop; setCurrent .nowhere : CheckM Unit).Gives c u c' ↔
      c' = { c with scopes := s, current := .nowhere } := by
  simp only [CheckM.gives_bind, CheckM.gives_walk, CheckM.gives_setCurrent, Walk.gives_pop, hpop]
  constructor
  · rintro ⟨_, _, ⟨_, _, ⟨hs, rfl⟩, rfl⟩, rfl⟩
    cases hs
    rfl
  · rintro rfl
    exact ⟨(), _, ⟨[], s, ⟨rfl, rfl⟩, rfl⟩, rfl⟩

theorem checkReturns_gives_iff {symbol : FunctionSymbol} (hc : c.function? = some symbol) :
    (checkReturns f).Gives c u c' ↔
      c' = { c with
        sink := c.sink.extend (if symbol.type != .void && !symbol.hasReturn then
          [(Violation.missingReturn f.name symbol.type).located f.loc] else []) } := by
  rw [checkReturns, CheckM.gives_get_bind, hc]
  simp only [CheckM.gives_walk_reports (.reportIf _ _ _), true_and]

theorem end_gives_iff {symbol : FunctionSymbol} {s : ScopeStack} (hc : c.function? = some symbol)
    (hpop : c.scopes.pop = .ok s) :
    (do checkReturns f; walk Walk.pop; setCurrent .nowhere : CheckM Unit).Gives c u c' ↔
      c' = { c with
        scopes := s
        current := .nowhere
        sink := c.sink.extend (if symbol.type != .void && !symbol.hasReturn then
          [(Violation.missingReturn f.name symbol.type).located f.loc] else []) } := by
  simp only [CheckM.gives_bind (m := checkReturns f), checkReturns_gives_iff hc, exists_eq_left,
    exists_const]
  exact leave_gives_iff hpop

theorem end_absorbed_gives_iff {symbol : FunctionSymbol} {s' : ScopeStack}
    (hc : c.function? = some symbol) (hcaller : symbol.caller = f.caller)
    (hreturn : symbol.hasReturn = false) (hpop : s'.pop = .ok c.scopes) (fs : List Finding) :
    (do checkReturns f; walk Walk.pop; setCurrent .nowhere : CheckM Unit).Gives
        (fs.foldl Checker.absorb { c with scopes := s' }) u c' ↔
      c' = { fs.foldl Checker.absorb c with
        current := .nowhere
        sink := c.sink.extend (fs.filterMap Finding.diagnostic? ++ f.returnReports fs) } := by
  have hfunction : (fs.foldl Checker.absorb { c with scopes := s' }).function? = _ :=
    (Checker.absorbed_function? { c with scopes := s' } fs).trans (congrArg _ hc)
  have hpop' : (fs.foldl Checker.absorb { c with scopes := s' }).scopes.pop = .ok c.scopes := by
    rw [(Checker.absorbed_frame _ fs).1, hpop]
  have hframe := Checker.absorbed_frame c fs
  have htype : (fs.foldl FunctionSymbol.note symbol).type = Ty.named f.returnType := by
    rw [← FunctionSymbol.signature_type, FunctionSymbol.signature_foldl_note]
    exact congrArg Caller.type hcaller
  have hreturns : (fs.foldl FunctionSymbol.note symbol).hasReturn = true ↔ .returned ∈ fs := by
    rw [FunctionSymbol.hasReturn_foldl_note, hreturn]
    simp
  rw [end_gives_iff hfunction hpop', Checker.absorbed_scopes, htype]
  have hreports : (if Ty.named f.returnType != .void &&
      !(fs.foldl FunctionSymbol.note symbol).hasReturn then
        [(Violation.missingReturn f.name (Ty.named f.returnType)).located f.loc] else []) =
      f.returnReports fs := by
    simp [FunctionDef.returnReports, ← hreturns]
  rw [hreports, Sink.extend_append, ← hframe.2.1, ← hframe.1]

/-- In a function that has no `return` yet, the walk over its body and the end of the function do
what the function does by itself. -/
theorem function_gives_iff {symbol : FunctionSymbol} (hc : c.function? = some symbol)
    (hcaller : symbol.caller = f.caller) (hreturn : symbol.hasReturn = false)
    (hscopes : c.scopes = ⟨[], G⟩) (hcallees : c.env.callee? = callee?) :
    (do walk (checkBody f); checkReturns f; walk Walk.pop; setCurrent .nowhere :
        CheckM Unit).Gives c u c' ↔
      (Site.mk G (.func f)).Walks callee? ∧
        c' = { ((Site.mk G (.func f)).walked callee?).findings.foldl Checker.absorb c with
          current := .nowhere
          sink := c.sink.extend ((Site.mk G (.func f)).reports callee?) } := by
  have henv : c.env = ⟨callee?, some f.caller⟩ := by
    rw [← hcaller, ← hcallees]
    exact congrArg (Env.mk _) (congrArg (Option.map _) hc)
  have hgives : ∀ {fs : List Finding} {s' : ScopeStack},
      (checkBody f).Gives c.env c.scopes fs () s' ↔
        (Site.mk G (.func f)).walked callee? = ⟨s', fs, .ok ()⟩ := by
    intro fs s'
    rw [henv, hscopes]
    rfl
  rw [CheckM.gives_bind]
  simp only [CheckM.gives_walk]
  constructor
  · rintro ⟨_, _, ⟨fs, s', hbody, rfl⟩, hend⟩
    have hwalked := hgives.mp hbody
    rw [end_absorbed_gives_iff hc hcaller hreturn (pop_of_checkBody_gives hbody)] at hend
    rw [Site.Walks, Site.reports, hwalked]
    exact ⟨rfl, hend⟩
  · rintro ⟨hwalks, rfl⟩
    obtain ⟨s', fs, hwalked⟩ := Site.walks_iff.mp hwalks
    have hbody := hgives.mpr hwalked
    refine ⟨(), _, ⟨fs, s', hbody, rfl⟩, ?_⟩
    rw [end_absorbed_gives_iff hc hcaller hreturn (pop_of_checkBody_gives hbody), Site.reports,
      hwalked]
    rfl

theorem globals_of_walks (h : (Site.mk G (.func f)).Walks callee?) :
    ((Site.mk G (.func f)).walked callee?).findings.filterMap Finding.global? = [] := by
  obtain ⟨s', fs, hwalked⟩ := Site.walks_iff.mp h
  rw [hwalked, List.filterMap_eq_nil_iff]
  exact fun finding hmem => (finds_checkBody f _ _ _ _ _ hwalked finding hmem).2

theorem checkFunction_entry_gives_iff {before after : List (String × FunctionSymbol)}
    (hc : c.Between callee? G) (hfunctions : c.functions = ⟨before ++ f.entry :: after⟩)
    (hbefore : f.name ∉ before.map Prod.fst) (hafter : f.name ∉ after.map Prod.fst) :
    (checkFunction f true).Gives c u c' ↔
      (Site.mk G (.func f)).Walks callee? ∧
        c' = { c with
          functions := ⟨before ++ shownEntry callee? (G, f) :: after⟩
          sink := c.sink.extend ((Site.mk G (.func f)).reports callee?) } := by
  have hfind : c.functions.find? f.name = some f.entry.2 := by
    rw [hfunctions]
    exact FunctionTable.find?_between hbefore
  rw [checkFunction_registered, CheckM.gives_setCurrent_bind,
    function_gives_iff (c := { c with current := .entry f.name }) hfind rfl rfl hc.scopes hc.callees]
  refine and_congr_right fun hwalks => ?_
  rw [Checker.absorbed_entry { c with current := .entry f.name } rfl, globals_of_walks hwalks,
    List.append_nil]
  simp only [hfunctions]
  rw [FunctionDef.entry, FunctionTable.modify_between hbefore hafter, ← hc.current]
  rfl

theorem checkFunction_detached_gives_iff (hc : c.Between callee? G) :
    (checkFunction f false).Gives c u c' ↔
      (Site.mk G (.func f)).Walks callee? ∧
        c' = { c with
          sink := c.sink.extend
            (typeReports f.returnType f.loc ++ (Site.mk G (.func f)).reports callee?) } := by
  show (walk (Walk.resolveType f.returnType f.loc) >>= fun type => do
    setCurrent (.detached (f.symbol type []))
    walk (checkBody f)
    checkReturns f
    walk Walk.pop
    setCurrent .nowhere : CheckM Unit).Gives c u c' ↔ _
  rw [CheckM.gives_walk_reports_bind (Walk.reports_resolveType _ _), CheckM.gives_setCurrent_bind]
  let c₁ : Checker :=
    { c with
      sink := c.sink.extend (typeReports f.returnType f.loc)
      current := .detached (f.symbol (Ty.named f.returnType) []) }
  refine (function_gives_iff (c := c₁) rfl rfl rfl hc.scopes hc.callees).trans ?_
  refine and_congr_right fun hwalks => ?_
  rw [Checker.absorbed_detached c₁ rfl, globals_of_walks hwalks, List.append_nil,
    Sink.extend_append, ← hc.current]

/-! ## Global variables -/

theorem globals_of_violations {fs : List Finding}
    (h : ∀ finding ∈ fs, finding.diagnostic? ≠ none) : fs.filterMap Finding.global? = [] := by
  rw [List.filterMap_eq_nil_iff]
  intro finding hmem
  have hviolation := h finding hmem
  cases finding with
  | globalVar symbol => exact absurd rfl hviolation
  | _ => rfl

theorem declare_global_gives {d : VarDecl} {env : Env} {fs : List Finding} {s' : ScopeStack}
    {v : Violation} {loc : Location}
    (h : (Walk.declare d.symbol >>= fun fresh =>
      if fresh then Walk.find (.globalVar d.symbol) else Walk.report v loc).Gives
        env ⟨[], G⟩ fs u s') :
    s' = ⟨[], (Decl.var d).after G⟩ ∧ fs.filterMap Finding.global? = (Decl.var d).adds G := by
  obtain ⟨_, fresh, s₁, _, hdeclare, hfind, rfl⟩ := Walk.gives_bind.mp h
  obtain ⟨hcases, rfl⟩ := Walk.gives_declare.mp hdeclare
  have hname : d.symbol.name = d.name := rfl
  cases hl : G.lookup d.name with
  | none =>
    have hadds : (Decl.var d).adds G = [d.symbol] := by simp [Decl.adds, hl]
    have hok : (⟨[], G⟩ : ScopeStack).declare d.symbol.name d.symbol =
        .ok ⟨[], (d.name, d.symbol) :: G⟩ := by
      simp only [ScopeStack.declare, ScopeStack.innermost, List.headD_nil, hname, hl]
    rw [hok] at hcases
    obtain ⟨hs₁, rfl⟩ | ⟨⟨_, herror⟩, -⟩ := hcases
    · cases hs₁
      obtain ⟨rfl, rfl⟩ := Walk.gives_find.mp hfind
      rw [Decl.after, hadds]
      exact ⟨rfl, rfl⟩
    · cases herror
  | some existing =>
    have hadds : (Decl.var d).adds G = [] := by simp [Decl.adds, hl]
    have herror : (⟨[], G⟩ : ScopeStack).declare d.symbol.name d.symbol =
        .error (.duplicate d.name existing) := by
      simp only [ScopeStack.declare, ScopeStack.innermost, List.headD_nil, hname, hl]
    rw [herror] at hcases
    obtain ⟨hok, -⟩ | ⟨-, rfl, rfl⟩ := hcases
    · cases hok
    · obtain ⟨rfl, rfl⟩ := Walk.gives_find.mp hfind
      rw [Decl.after, hadds]
      exact ⟨rfl, rfl⟩

/-- The declaration of a global variable leaves the global frame after it, and finds the variable if
it is new. -/
theorem checkVarDecl_global_gives {d : VarDecl} {env : Env} {fs : List Finding} {s' : ScopeStack}
    (h : (checkVarDecl .global d).Gives env ⟨[], G⟩ fs u s') :
    s' = ⟨[], (Decl.var d).after G⟩ ∧ fs.filterMap Finding.global? = (Decl.var d).adds G := by
  obtain ⟨fs₁, τ, _, fs₂, htype, h, rfl⟩ := Walk.gives_bind.mp h
  obtain ⟨rfl, rfl, hall⟩ := (Walk.reports_resolveType _ _).eq_of_gives htype
  rw [List.filterMap_append, globals_of_violations hall, List.nil_append]
  cases hv : d.value with
  | none =>
    rw [hv] at h
    exact declare_global_gives h
  | some e =>
    rw [hv] at h
    obtain ⟨fs₃, _, _, fs₄, hexpr, h, rfl⟩ := Walk.gives_bind.mp h
    have hstill := still_checkExpr e _ _ _ _ _ hexpr
    have hinner : fs₃.filterMap Finding.global? = [] :=
      List.filterMap_eq_nil_iff.mpr fun finding hmem =>
        (finds_checkExpr e _ _ _ _ _ hexpr finding hmem).2
    subst hstill
    obtain ⟨fs₅, _, _, fs₆, hreport, h, rfl⟩ := Walk.gives_bind.mp h
    obtain ⟨-, rfl, hall⟩ := (Walk.Reports.reportIf _ _ _).eq_of_gives hreport
    rw [List.filterMap_append, List.filterMap_append, hinner, globals_of_violations hall,
      List.nil_append, List.nil_append]
    exact declare_global_gives h

theorem global_gives_iff (hc : c.Between callee? G) {d : VarDecl} :
    (walk (checkVarDecl .global d)).Gives c u c' ↔
      (Site.mk G (.var d)).Walks callee? ∧
        c' = { c with
          scopes := ⟨[], (Decl.var d).after G⟩
          globals := c.globals ++ (Decl.var d).adds G
          sink := c.sink.extend ((Site.mk G (.var d)).reports callee?) } := by
  have henv : c.env = ⟨callee?, none⟩ := by
    have hfunction : c.function? = none := by rw [Checker.function?, hc.current]
    rw [← hc.callees]
    exact congrArg (Env.mk _) (congrArg (Option.map _) hfunction)
  have hgives : ∀ {fs : List Finding} {s' : ScopeStack},
      (checkVarDecl .global d).Gives c.env c.scopes fs () s' ↔
        (Site.mk G (.var d)).walked callee? = ⟨s', fs, .ok ()⟩ := by
    intro fs s'
    rw [henv, hc.scopes]
    rfl
  have hafter : ∀ {fs : List Finding} {s' : ScopeStack},
      (Site.mk G (.var d)).walked callee? = ⟨s', fs, .ok ()⟩ →
        s' = ⟨[], (Decl.var d).after G⟩ ∧ fs.filterMap Finding.global? = (Decl.var d).adds G :=
    fun h => checkVarDecl_global_gives h
  rw [CheckM.gives_walk]
  constructor
  · rintro ⟨fs, s', hwalk, rfl⟩
    have hwalked := hgives.mp hwalk
    obtain ⟨rfl, hglobals⟩ := hafter hwalked
    rw [Checker.absorbed_nowhere { c with scopes := ⟨[], (Decl.var d).after G⟩ } hc.current,
      hglobals, Site.Walks, Site.reports, hwalked]
    exact ⟨rfl, by simp [Decl.returnReports]⟩
  · rintro ⟨hwalks, rfl⟩
    obtain ⟨_, fs, hwalked⟩ := Site.walks_iff.mp hwalks
    obtain ⟨rfl, hglobals⟩ := hafter hwalked
    refine ⟨fs, _, hgives.mpr hwalked, ?_⟩
    rw [Checker.absorbed_nowhere { c with scopes := ⟨[], (Decl.var d).after G⟩ } hc.current,
      hglobals, Site.reports, hwalked]
    simp [Decl.returnReports]

/-! ## Declarations -/

theorem between_of_signatures (hc : c.Between callee? G) {G' : Scope}
    (hscopes : c'.scopes = ⟨[], G'⟩) (hcurrent : c'.current = .nowhere)
    (hsignatures : c'.functions.signatures = c.functions.signatures) : c'.Between callee? G' := by
  refine ⟨hscopes, hcurrent, ?_⟩
  rw [← hc.callees]
  funext name
  show (c'.functions.find? name).map _ = (c.functions.find? name).map _
  rw [FunctionTable.find?_signature, FunctionTable.find?_signature, hsignatures]

theorem signatures_shown {before : List (String × FunctionSymbol)} {taken : List String}
    {pending : List FunctionDef} :
    FunctionTable.signatures
        ⟨(before ++ (firsts (·.2.name) taken [(G, f)]).map (shownEntry callee?)) ++
          (firsts (·.name) (f.name :: taken) pending).map FunctionDef.entry⟩ =
      FunctionTable.signatures
        ⟨before ++ (firsts (·.name) taken (f :: pending)).map FunctionDef.entry⟩ := by
  have happend : firsts (·.name) taken (f :: pending) =
      firsts (·.name) taken [f] ++ firsts (·.name) (f.name :: taken) pending :=
    firsts_append (l := [f])
  have hmap := map_firsts FunctionDef.name (Prod.snd : Scope × FunctionDef → FunctionDef) taken
    [(G, f)]
  rw [happend, ← show _ = firsts (·.name) taken [f] from hmap]
  simp [FunctionTable.signatures, shownEntry, FunctionDef.shown, FunctionDef.entry,
    FunctionSymbol.signature_foldl_note]

theorem taken_of_shown {before : List (String × FunctionSymbol)} {taken : List String}
    (hbefore : ∀ key ∈ before.map Prod.fst, key ∈ taken) :
    ∀ key ∈ (before ++ (firsts (·.2.name) taken [(G, f)]).map (shownEntry callee?)).map Prod.fst,
      key ∈ f.name :: taken := by
  intro key hkey
  rw [List.map_append, List.mem_append] at hkey
  rcases hkey with hkey | hkey
  · exact List.mem_cons_of_mem _ (hbefore key hkey)
  · obtain ⟨_, hentry, rfl⟩ := List.mem_map.mp hkey
    obtain ⟨site, hsite, rfl⟩ := List.mem_map.mp hentry
    rw [List.mem_singleton.mp (sublist_firsts.subset hsite)]
    exact List.mem_cons_self

/-- The functions `before` have been shown; `f` is the first of those that follow. It is shown if it
is the first of its name. -/
theorem checkFunction_gives_iff {taken : List String} {pending : List FunctionDef}
    {before : List (String × FunctionSymbol)} (hc : c.Between callee? G)
    (hfunctions :
      c.functions = ⟨before ++ (firsts (·.name) taken (f :: pending)).map FunctionDef.entry⟩)
    (hbefore : ∀ key ∈ before.map Prod.fst, key ∈ taken) :
    (checkFunction f (!taken.contains f.name)).Gives c u c' ↔
      (Site.mk G (.func f)).Walks callee? ∧
        c' = { c with
          functions := ⟨(before ++ (firsts (·.2.name) taken [(G, f)]).map (shownEntry callee?)) ++
            (firsts (·.name) (f.name :: taken) pending).map FunctionDef.entry⟩
          sink := c.sink.extend ((if f.name ∈ taken then typeReports f.returnType f.loc else []) ++
            (Site.mk G (.func f)).reports callee?) } := by
  by_cases hname : f.name ∈ taken
  · have htaken : ∀ key, key ∈ f.name :: taken ↔ key ∈ taken := by simpa using hname
    have hflag : (!taken.contains f.name) = false := by simpa using hname
    have hshown : firsts (fun site : Scope × FunctionDef => site.2.name) taken [(G, f)] = [] :=
      firsts_cons_of_mem hname
    rw [firsts_cons_of_mem hname, ← firsts_congr htaken] at hfunctions
    rw [hflag, checkFunction_detached_gives_iff hc, hshown, if_pos hname, List.map_nil,
      List.append_nil, ← hfunctions]
  · have hflag : (!taken.contains f.name) = true := by simpa using hname
    have hshown : firsts (fun site : Scope × FunctionDef => site.2.name) taken [(G, f)] = [(G, f)] :=
      firsts_cons_of_not_mem hname
    have hafter : f.name ∉
        ((firsts (·.name) (f.name :: taken) pending).map FunctionDef.entry).map Prod.fst := by
      rw [List.map_map]
      intro hmem
      obtain ⟨g, hg, hkey⟩ := List.mem_map.mp hmem
      exact key_not_mem_of_mem_firsts hg (List.mem_cons.mpr (.inl hkey))
    rw [firsts_cons_of_not_mem hname] at hfunctions
    rw [hflag, checkFunction_entry_gives_iff hc hfunctions (mt (hbefore _) hname) hafter, hshown,
      if_neg hname, List.append_assoc]
    rfl

/-- The declarations are walked in turn. The functions `before` have been shown, and the first
functions of the other names are still to be. -/
theorem checkDecls_gives_iff {ds : List Decl} {taken : List String}
    (before : List (String × FunctionSymbol)) (hc : c.Between callee? G)
    (hfunctions : c.functions = ⟨before ++
      (firsts (·.name) taken (ds.filterMap Decl.function?)).map FunctionDef.entry⟩)
    (hbefore : ∀ key ∈ before.map Prod.fst, key ∈ taken) :
    (checkDecls taken ds).Gives c u c' ↔
      (∀ site ∈ sites G ds, site.Walks callee?) ∧
        c' = {
          scopes := ⟨[], ds.foldl Decl.after G⟩
          functions := ⟨before ++
            (firsts (·.2.name) taken (functionSites G ds)).map (shownEntry callee?)⟩
          globals := c.globals ++ (sites G ds).flatMap Site.adds
          sink := c.sink.extend (declReports callee? taken G ds)
          current := .nowhere } := by
  induction ds generalizing c G taken before with
  | nil =>
    have hself : c = ⟨⟨[], G⟩, ⟨before ++ []⟩, c.globals ++ [], c.sink, .nowhere⟩ := by
      have hfunctions : c.functions = ⟨before ++ []⟩ := hfunctions
      rw [← hc.scopes, ← hc.current, ← hfunctions, List.append_nil]
    rw [checkDecls, CheckM.gives_pure, and_iff_right rfl, and_iff_right (by simp [sites])]
    exact Iff.of_eq (congrArg (c' = ·) hself)
  | cons d ds ih =>
    rw [sites, List.forall_mem_cons, and_assoc]
    cases d with
    | func f =>
      rw [checkDecls,
        CheckM.gives_bind_of_iff fun _ _ => checkFunction_gives_iff hc hfunctions hbefore]
      refine and_congr_right fun _ => ?_
      let before' := before ++ (firsts (·.2.name) taken [(G, f)]).map (shownEntry callee?)
      let c₁ : Checker :=
        { c with
          functions := ⟨before' ++ (firsts (·.name) (f.name :: taken)
            (ds.filterMap Decl.function?)).map FunctionDef.entry⟩
          sink := c.sink.extend ((if f.name ∈ taken then typeReports f.returnType f.loc else []) ++
            (Site.mk G (.func f)).reports callee?) }
      have hc₁ : c₁.Between callee? G := by
        refine between_of_signatures hc hc.scopes hc.current ?_
        rw [hfunctions]
        exact signatures_shown
      have hsites : functionSites G (.func f :: ds) = [(G, f)] ++ functionSites G ds := rfl
      refine (ih before' hc₁ rfl (taken_of_shown hbefore)).trans (and_congr_right fun _ => ?_)
      rw [declReports, Sink.extend_append, hsites, firsts_append, List.map_append,
        ← List.append_assoc]
      rfl
    | var d =>
      rw [checkDecls, CheckM.gives_bind_of_iff fun _ _ => global_gives_iff hc]
      refine and_congr_right fun _ => ?_
      let c₁ : Checker :=
        { c with
          scopes := ⟨[], (Decl.var d).after G⟩
          globals := c.globals ++ (Decl.var d).adds G
          sink := c.sink.extend ((Site.mk G (.var d)).reports callee?) }
      have hc₁ : c₁.Between callee? ((Decl.var d).after G) :=
        between_of_signatures hc rfl hc.current rfl
      refine (ih before hc₁ hfunctions hbefore).trans (and_congr_right fun _ => ?_)
      rw [declReports, Sink.extend_append, List.flatMap_cons, ← List.append_assoc]
      · rfl
      · simp
    | unsupported =>
      refine iff_of_false (fun h => ?_) fun h => ?_
      · cases h
      · cases h.1

end Checking

end Sema
