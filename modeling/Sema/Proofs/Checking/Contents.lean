import Sema.Proofs.Checking.Showing
import Sema.Proofs.Diagnostics.Texts

/-!
# What a check shows of the contents of a program

The walk over the body of a function shows what the body contains (`checkBody_shows`), so a check
shows of each function the control structures, the new variables, and whether it returns and calls
itself; of the program, it shows the new global variables and the functions that lack a `return`
(`ofProgram_contents`).
-/

namespace Sema

open Walk Typing

/-! ## Declared names -/

theorem ScopeStack.innermost_of_frames {s : ScopeStack} {F : Scope} {rest : List Scope}
    (h : s.frames = F :: rest) : s.innermost = F := by
  obtain ⟨rest', h'⟩ := s.exists_frames
  rw [h'] at h
  exact (List.cons.inj h).1

theorem Tracks.declare {φ : FramePath} {n : Nat} {seen : List (FramePath × String)}
    {s s' : ScopeStack} {env : Env} {symbol : Symbol} {fs : List Finding} {fresh : Bool}
    (h : Tracks φ n seen s) (hdeclare : (Walk.declare symbol).Gives env s fs fresh s') :
    fs = [] ∧ (fresh = true ↔ (φ, symbol.name) ∉ seen) ∧
      Tracks φ n (seen ++ [(φ, symbol.name)]) s' := by
  have hunused : ∀ key ∈ seen ++ [(φ, symbol.name)], ∀ m, n ≤ m → ¬(m :: φ) <:+ key.1 := by
    intro key hkey m hm
    rcases List.mem_append.mp hkey with hkey | hkey
    · exact h.unused key hkey m hm
    · rw [List.mem_singleton.mp hkey]
      exact not_cons_suffix_self
  obtain ⟨hcases, rfl⟩ := gives_declare.mp hdeclare
  refine ⟨rfl, ?_⟩
  rcases hcases with ⟨hok, rfl⟩ | ⟨⟨e, herror⟩, rfl, rfl⟩
  · obtain ⟨F, rest, hs, hfree, hs'⟩ := ScopeStack.declare_eq_ok_iff.mp hok
    have hnames := h.names
    rw [ScopeStack.innermost_of_frames hs] at hnames
    refine ⟨⟨fun _ hmem => (hnames _).mp hmem hfree, fun _ => rfl⟩, fun x => ?_, hunused⟩
    rw [ScopeStack.innermost_of_frames hs', List.mem_append, hnames, List.mem_singleton,
      Prod.mk.injEq, List.lookup_cons]
    by_cases hx : x = symbol.name
    · simp [hx]
    · simp [hx, beq_false_of_ne hx]
  · obtain ⟨existing, htaken, -⟩ := ScopeStack.declare_eq_error_iff.mp herror
    have hmem : (φ, symbol.name) ∈ seen := (h.names _).mpr (by simp [htaken])
    refine ⟨⟨nofun, fun hfree => absurd hmem hfree⟩, fun x => ?_, hunused⟩
    rw [List.mem_append, ← h.names, List.mem_singleton]
    exact or_iff_left_of_imp fun hx => hx ▸ hmem

namespace Checking

variable {name : String} {env : Env} {φ : FramePath} {n : Nat}

theorem declare_shows (d : VarDecl) :
    (do
      if ← Walk.declare d.symbol then Walk.find (Extent.inFunction.found d.symbol)
      else Walk.report (Extent.inFunction.duplicate d.name) d.loc : Walk Unit).Shows name env
        (Tracks φ n) [.declared φ d] (Tracks φ n) := by
  intro seen s fs u s' hP h
  obtain ⟨_, fresh, s₁, fs', hdeclare, hrest, rfl⟩ := gives_bind.mp h
  obtain ⟨rfl, hfresh, hQ⟩ := hP.declare hdeclare
  have hkey : FunctionDef.variableKey (φ, d) = (φ, d.symbol.name) := rfl
  cases fresh with
  | true =>
    obtain ⟨rfl, rfl⟩ := gives_find.mp hrest
    refine ⟨⟨rfl, iff_of_false (by simp [Extent.found]) Bool.false_ne_true,
      iff_of_false (by simp [Extent.found]) Expr.someCalls_nil, ?_⟩, hQ⟩
    have hnew : FunctionDef.variableKey (φ, d) ∉ seen := hfresh.mp rfl
    show _ = (firsts _ seen [(φ, d)]).map _
    rw [firsts_cons_of_not_mem hnew]
    rfl
  | false =>
    obtain ⟨rfl, rfl⟩ := gives_find.mp hrest
    refine ⟨⟨rfl, iff_of_false (by simp) Bool.false_ne_true,
      iff_of_false (by simp) Expr.someCalls_nil, ?_⟩, hQ⟩
    have hold : FunctionDef.variableKey (φ, d) ∈ seen :=
      Decidable.of_not_not fun hnew => Bool.false_ne_true (hfresh.mpr hnew)
    show _ = (firsts _ seen [(φ, d)]).map _
    rw [firsts_cons_of_mem hold]
    rfl

/-! ## Statements -/

variable {P Q : BodyPlace}

theorem checkExpr_shows (henv : env.Inside name) (e : Expr) :
    (checkExpr e).Shows name env P [.expr e] P := by
  refine Visits.shows ?_ (by simp)
  simpa [Item.expressions] using checkExpr_visits henv e

theorem checkAssign_shows (henv : env.Inside name) (target : String) (loc : Location)
    (value : Option Expr) :
    (checkAssign target loc (checkValue? value)).Shows name env P (Item.ofExpr? value) P := by
  have hvisits : (checkAssign target loc (checkValue? value)).Visits name env
      ((Item.ofExpr? value).flatMap Item.expressions) := by
    cases value with
    | none =>
      refine checkAssign_visits target loc (fun _ => rfl) fun _ hw => ?_
      cases hw
    | some e =>
      refine checkAssign_visits target loc (fun h => ?_) fun _ hw => ?_
      · cases h
      · cases hw
        simpa [Item.expressions, Item.ofExpr?] using checkExpr_visits henv e
  refine hvisits.shows ?_
  cases value <;> simp [Item.ofExpr?]

theorem checkCondition?_shows (henv : env.Inside name) (condition : Option Expr) :
    (checkCondition? condition).Shows name env P (Item.ofExpr? condition) P := by
  cases condition with
  | none => exact Visits.read.shows_nothing
  | some e => exact (checkExpr_shows henv e).discard

theorem checkReturn_shows (henv : env.Inside name) (loc : Location) (value : Option Expr) :
    (checkReturn loc value).Shows name env P (.result :: Item.ofExpr? value) P := by
  obtain ⟨type, hcaller⟩ := henv.caller
  unfold checkReturn
  refine Shows.read_bind (g := fun env _ => env.caller) fun _ => ?_
  rw [hcaller]
  refine Shows.result.bind fun _ => ?_
  cases value with
  | none => exact .after (.pure _) fun _ => (Visits.reporting (.reportIf _ _ _)).shows_nothing
  | some e =>
    exact (checkExpr_shows henv e).bind fun _ =>
      (Visits.reporting (.reportIf _ _ _)).shows_nothing

theorem checkVarDecl_shows (henv : env.Inside name) (d : VarDecl) :
    (checkVarDecl .inFunction d).Shows name env (Tracks φ n)
      (Item.ofExpr? d.value ++ [.declared φ d]) (Tracks φ n) := by
  unfold checkVarDecl
  refine Shows.after_reports (reports_resolveType d.type d.loc) ?_
  cases hvalue : d.value with
  | none => exact declare_shows d
  | some e =>
    exact (checkExpr_shows henv e).bind fun _ => .after (.reportIf _ _ _) fun _ => declare_shows d

theorem frame_of_mem_declaredKeys {χ : FramePath} {items : List Item}
    (h : ∀ ψ d, .declared ψ d ∈ items → χ <:+ ψ) : ∀ key ∈ declaredKeys items, χ <:+ key.1 := by
  intro key hkey
  obtain ⟨d, hd⟩ := exists_declared_of_mem hkey
  exact h key.1 d hd

theorem frame_of_mem_forLoop {ψ : FramePath} {d : VarDecl} {init : Option Stmt}
    {condition : Option Expr} {update : Option Stmt} {body : Block}
    (h : .declared ψ d ∈ Stmt.optionItems (n :: φ) 0 init ++ (Item.ofExpr? condition ++
      (Stmt.optionItems (n :: φ) 1 update ++ body.items (2 :: n :: φ)))) : (n :: φ) <:+ ψ := by
  have hloop : .declared ψ d ∈ (Stmt.forLoop ⟨0, 0, none⟩ init condition update body).items φ n :=
    List.mem_cons_of_mem _ h
  rcases Stmt.frame_of_mem_items _ hloop with ⟨-, hstmt⟩ | hframe
  · cases hstmt
  · exact hframe

mutual

theorem checkStmt_shows (henv : env.Inside name) :
    ∀ (st : Stmt) (φ : FramePath) (n : Nat),
      (checkStmt st).Shows name env (Tracks φ n) (st.items φ n) (Tracks φ (n + 1))
  | .varDecl d, φ, n => (checkVarDecl_shows henv d).weaken (fun _ _ h => h) fun _ _ h => h.next
  | .assign loc target value, φ, n =>
    (checkAssign_shows henv target loc value).discard.weaken (fun _ _ h => h) fun _ _ h => h.next
  | .expr _ value, φ, n =>
    (checkExpr_shows henv value).discard.weaken (fun _ _ h => h) fun _ _ h => h.next
  | .block _ body, φ, n => checkBlock_shows henv body Tracks.opens
  | .ifThen loc condition yes no, φ, n =>
    ((Shows.control _).bind fun _ => (checkExpr_shows henv condition).bind fun _ =>
      (checkBlock_shows henv yes Partway.opens).bind fun _ =>
        checkBlock?_shows henv no Partway.opens).weaken (fun _ _ h => h.partway)
      fun _ _ h => h.toTracks
  | .whileLoop loc condition body, φ, n =>
    (Shows.control _).bind fun _ => (checkExpr_shows henv condition).bind fun _ =>
      checkBlock_shows henv body Tracks.opens
  | .forLoop loc init condition update body, φ, n => by
    rw [checkStmt_forLoop]
    have hloop := (checkStmt?_shows henv init (n :: φ) 0).bind fun _ =>
      (checkCondition?_shows henv condition).bind fun _ =>
        (checkStmt?_shows henv update (n :: φ) 1).bind fun _ =>
          checkBlock_shows henv body Tracks.opens
    exact (Shows.control _).bind fun _ =>
      .enclosed Tracks.opens (framed_forLoop init condition update body)
        (frame_of_mem_declaredKeys fun _ _ => frame_of_mem_forLoop) hloop
  | .result loc value, φ, n =>
    (checkReturn_shows henv loc value).weaken (fun _ _ h => h) fun _ _ h => h.next
  | .unsupported, _, _ => .fail _

theorem checkStmt?_shows (henv : env.Inside name) :
    ∀ (st : Option Stmt) (φ : FramePath) (n : Nat),
      (checkStmt? st).Shows name env (Tracks φ n) (Stmt.optionItems φ n st) (Tracks φ (n + 1))
  | none, _, _ => Visits.read.shows_nothing.weaken (fun _ _ h => h) fun _ _ h => h.next
  | some st, φ, n => checkStmt_shows henv st φ n

theorem checkBlock_shows (henv : env.Inside name) {P Q : BodyPlace} {χ : FramePath} :
    ∀ b : Block, Opens χ P Q → (checkBlock b).Shows name env P (b.items χ) Q
  | .mk loc ss, hopens => by
    rw [checkBlock_eq]
    exact .enclosed hopens (framed_checkStmts _)
      (frame_of_mem_declaredKeys fun _ _ => Block.frame_of_mem_items (.mk loc ss))
      (checkStmts_shows henv ss χ 0)

theorem checkBlock?_shows (henv : env.Inside name) {P Q : BodyPlace} {χ : FramePath} :
    ∀ b : Option Block, Opens χ P Q → (checkBlock? b).Shows name env P (Block.optionItems χ b) Q
  | none, hopens => Visits.read.shows_nothing.weaken (fun _ _ h => h) fun seen _ h =>
    List.append_nil seen ▸ hopens.closes h (by simp)
  | some b, hopens => checkBlock_shows henv b hopens

theorem checkStmts_shows (henv : env.Inside name) :
    ∀ (ss : List Stmt) (φ : FramePath) (n : Nat),
      (checkStmts ss).Shows name env (Tracks φ n) (Stmt.allItems φ n ss) fun _ _ => True
  | [], _, _ => Visits.read.shows_nothing.weaken (fun _ _ h => h) fun _ _ _ => trivial
  | st :: ss, φ, n =>
    (checkStmt_shows henv st φ n).bind fun _ => checkStmts_shows henv ss φ (n + 1)

end

/-! ## Bodies -/

theorem bindParams_tracks {func : String} {ps : List Param} {seen : List (FramePath × String)}
    {s s' : ScopeStack} {fs : List Finding} {u : Unit} (h : Tracks φ n seen s)
    (hgives : (bindParams func ps).Gives env s fs u s') :
    (∀ finding ∈ fs, finding.diagnostic? ≠ none) ∧
      Tracks φ n (seen ++ ps.map fun p => (φ, p.name)) s' := by
  induction ps generalizing seen s fs with
  | nil =>
    obtain ⟨-, rfl, rfl⟩ := gives_pure.mp hgives
    exact ⟨by simp, by simpa using h⟩
  | cons p ps ih =>
    obtain ⟨fs₁, τ, _, _, htype, hbound, rfl⟩ := gives_bind.mp hgives
    obtain ⟨-, rfl, hall₁⟩ := (reports_resolveType _ _).eq_of_gives htype
    obtain ⟨_, fresh, s₁, _, hdeclare, hrest, rfl⟩ := gives_bind.mp hbound
    obtain ⟨rfl, -, hdeclared⟩ := h.declare hdeclare
    obtain ⟨fs₂, _, _, fs₃, hreport, hothers, rfl⟩ := gives_bind.mp hrest
    obtain ⟨-, rfl, hall₂⟩ := (Reports.reportIf _ _ _).eq_of_gives hreport
    obtain ⟨hall₃, hplace⟩ := ih hdeclared hothers
    refine ⟨?_, by simpa [paramSymbol] using hplace⟩
    simp only [List.nil_append, List.mem_append]
    rintro finding (hmem | hmem | hmem)
    · exact hall₁ finding hmem
    · exact hall₂ finding hmem
    · exact hall₃ finding hmem

/-- The walk over a function shows what its body contains. -/
theorem checkBody_shows {f : FunctionDef} (henv : env.Inside f.name) {s s' : ScopeStack}
    {fs : List Finding} {u : Unit} (h : (checkBody f).Gives env s fs u s') :
    Shown f.name f.paramKeys f.items fs := by
  obtain ⟨_, _, _, _, hpush, hrest, rfl⟩ := gives_bind.mp h
  obtain ⟨rfl, rfl⟩ := gives_push.mp hpush
  obtain ⟨fs₁, _, s₁, fs₂, hparams, hbody, rfl⟩ := gives_bind.mp hrest
  have hstart : Tracks [] 0 [] s.push := .push (by simp)
  obtain ⟨hall, hplace⟩ := bindParams_tracks hstart hparams
  have hshown := (checkStmts_shows henv f.body.statements [] 0 _ s₁ fs₂ _ s' hplace hbody).1
  rw [← List.append_nil ([] ++ _)] at hshown
  exact (Shown.of_violations hall).append hshown

end Checking

/-! ## Functions -/

namespace FunctionDef

variable {callee? : String → Option Signature} {G : Scope} (f : FunctionDef)

/-- What there is to show of a function: its head, and what its body contains. -/
def summary : FunctionSymbol :=
  { f.entry.2 with
    locals := f.newVariables.map VarDecl.symbol
    controls := f.controls
    isRecursive := f.isRecursive
    hasReturn := f.hasReturn }

/-- Whether a function should return a value and has no `return`. -/
def lacksReturn : Bool :=
  Ty.named f.returnType != .void && !f.hasReturn

def missingReturn : Diagnostic :=
  (Violation.missingReturn f.name (Ty.named f.returnType)).located f.loc

variable {f}

theorem shown_findings (hcallee : callee? f.name ≠ none)
    (hwalks : (Site.mk G (.func f)).Walks callee?) :
    Shown f.name f.paramKeys f.items ((Site.mk G (.func f)).walked callee?).findings := by
  obtain ⟨s', fs, hwalked⟩ := Site.walks_iff.mp hwalks
  have henv : Env.Inside ⟨callee?, some f.caller⟩ f.name := ⟨⟨_, rfl⟩, hcallee⟩
  rw [hwalked]
  exact Checking.checkBody_shows henv hwalked

theorem shown_eq_summary (hcallee : callee? f.name ≠ none)
    (hwalks : (Site.mk G (.func f)).Walks callee?) : f.shown callee? G = f.summary := by
  have hshown := shown_findings hcallee hwalks
  have hcontrols : (f.shown callee? G).controls = f.controls := by
    rw [shown, FunctionSymbol.controls_foldl_note, hshown.controls]
    rfl
  have hlocals : (f.shown callee? G).locals = f.newVariables.map VarDecl.symbol := by
    rw [shown, FunctionSymbol.locals_foldl_note, hshown.locals, newVariables, List.map_map]
    rfl
  have hrecursive : (f.shown callee? G).isRecursive = f.isRecursive := by
    rw [Bool.eq_iff_iff, shown, FunctionSymbol.isRecursive_foldl_note, hshown.selfCall]
    exact or_iff_right Bool.false_ne_true
  have hreturn : (f.shown callee? G).hasReturn = f.hasReturn := by
    rw [Bool.eq_iff_iff, shown, FunctionSymbol.hasReturn_foldl_note, hshown.returned]
    exact or_iff_right Bool.false_ne_true
  rw [FunctionSymbol.eq_of_head_eq (f := f.entry.2) (f.head_shown callee? G), hcontrols, hlocals,
    hrecursive, hreturn]
  rfl

theorem returnReports_eq (hcallee : callee? f.name ≠ none)
    (hwalks : (Site.mk G (.func f)).Walks callee?) :
    f.returnReports ((Site.mk G (.func f)).walked callee?).findings =
      if f.lacksReturn then [f.missingReturn] else [] := by
  have hreturned := (shown_findings hcallee hwalks).returned
  simp only [returnReports, hreturned, lacksReturn, missingReturn, hasReturn, bne_iff_ne,
    Bool.and_eq_true, Bool.not_eq_true', Bool.not_eq_true, ne_eq]

end FunctionDef

/-! ## Programs -/

theorem globals_eq_firsts (G : Scope) (ds : List Decl) :
    (sites G ds).flatMap Site.adds =
      (firsts (·.name) (G.map Prod.fst) (ds.filterMap Decl.variable?)).map VarDecl.symbol := by
  induction ds generalizing G with
  | nil => rfl
  | cons d ds ih =>
    rw [sites, List.flatMap_cons, ih]
    cases d with
    | func f => rfl
    | unsupported => rfl
    | var v =>
      have hvariables : (Decl.var v :: ds).filterMap Decl.variable? =
          v :: ds.filterMap Decl.variable? := rfl
      rw [hvariables]
      by_cases hmem : v.name ∈ G.map Prod.fst
      · have hadds : (Decl.var v).adds G = [] := if_pos (isSome_lookup_iff_mem_keys.mpr hmem)
        rw [firsts_cons_of_mem hmem, Site.adds, Decl.after, hadds]
        rfl
      · have hadds : (Decl.var v).adds G = [v.symbol] :=
          if_neg (mt isSome_lookup_iff_mem_keys.mp hmem)
        rw [firsts_cons_of_not_mem hmem, Site.adds, Decl.after, hadds]
        rfl

/-- Whether a diagnostic is a report on a missing `return`. -/
def Diagnostic.onReturn (d : Diagnostic) : Bool :=
  d.code == .missingReturn

theorem Diagnostic.OfWalk.not_onReturn {d : Diagnostic} (h : d.OfWalk) : ¬d.onReturn = true := by
  obtain ⟨v, loc, hv, rfl⟩ := h
  cases v with
  | missingReturn func type => exact hv.elim
  | _ => exact Bool.false_ne_true

theorem filter_onReturn_eq_nil {ds : List Diagnostic} (h : ∀ d ∈ ds, d.OfWalk) :
    ds.filter (·.onReturn) = [] :=
  List.filter_eq_nil_iff.mpr fun d hd => (h d hd).not_onReturn

theorem filter_declReports {callee? : String → Option Signature} {taken : List String} {G : Scope}
    {ds : List Decl} (hwalks : ∀ site ∈ sites G ds, site.Walks callee?)
    (hcallee : ∀ f ∈ ds.filterMap Decl.function?, callee? f.name ≠ none) :
    (declReports callee? taken G ds).filter (·.onReturn) =
      ((ds.filterMap Decl.function?).filter (·.lacksReturn)).map (·.missingReturn) := by
  induction ds generalizing taken G with
  | nil => rfl
  | cons d ds ih =>
    rw [sites, List.forall_mem_cons] at hwalks
    have hfound := filter_onReturn_eq_nil fun d => Site.ofWalk_findings (d := d) hwalks.1
    cases d with
    | func f =>
      have hfunctions : (Decl.func f :: ds).filterMap Decl.function? =
          f :: ds.filterMap Decl.function? := rfl
      have hafter : (Decl.func f).after G = G := rfl
      rw [hfunctions, List.forall_mem_cons] at hcallee
      rw [hafter] at hwalks
      have htype : (if f.name ∈ taken then typeReports f.returnType f.loc else []).filter
          (·.onReturn) = [] := by
        refine filter_onReturn_eq_nil fun d hd => ?_
        split at hd
        · exact .of_mem_typeReports hd
        · cases hd
      have hreturn : (Decl.func f).returnReports
          ((Site.mk G (.func f)).walked callee?).findings = _ :=
        FunctionDef.returnReports_eq hcallee.1 hwalks.1
      rw [declReports, hfunctions, List.filter_append, List.filter_append, htype, Site.reports,
        List.filter_append, hfound, hreturn, ih hwalks.2 hcallee.2]
      by_cases hlacks : f.lacksReturn = true
      · rw [if_pos hlacks, List.filter_cons_of_pos hlacks]
        rfl
      · rw [if_neg hlacks, List.filter_cons_of_neg hlacks]
        rfl
    | var v =>
      rw [declReports, Site.reports, List.filter_append, List.filter_append, hfound,
        ih hwalks.2 hcallee]
      · rfl
      · simp
    | unsupported => cases hwalks.1

namespace Program

variable {p : Program}

theorem callee?_ne_none {f : FunctionDef} (h : f ∈ p.functions) : p.callee? f.name ≠ none := by
  rw [callee?, Ne, Option.map_eq_none_iff, List.find?_eq_none]
  exact fun hnone => hnone f h (beq_self_eq_true _)

theorem entries_table_eq (hp : p.Walks) :
    p.table.entries = (firsts (·.name) [] p.functions).map fun f => (f.name, f.summary) := by
  rw [← map_snd_firsts_functionSites, List.map_map]
  refine List.map_congr_left fun site hsite => ?_
  have hsite := sublist_firsts.subset hsite
  have hmem : site.2 ∈ p.functions := by
    rw [← map_snd_functionSites]
    exact List.mem_map_of_mem hsite
  have hshown := FunctionDef.shown_eq_summary (callee?_ne_none hmem)
    (hp _ (mem_sites_of_mem_functionSites hsite))
  exact Prod.ext rfl hshown

theorem filter_reports (hp : p.Walks) :
    p.reports.filter (·.onReturn) =
      (p.functions.filter (·.lacksReturn)).map (·.missingReturn) := by
  have hregistration : (registrationReports [] p.functions).filter (·.onReturn) = [] := by
    refine List.filter_eq_nil_iff.mpr fun d hd => ?_
    rcases mem_registrationReports.mp hd with ⟨f, -, hd⟩ | ⟨f, -, rfl⟩
    · exact (Diagnostic.OfWalk.of_mem_headReports hd).not_onReturn
    · exact Bool.false_ne_true
  have hmain : p.mainReports.filter (·.onReturn) = [] := by
    refine List.filter_eq_nil_iff.mpr fun d hd => ?_
    rw [(mem_mainReports.mp hd).2]
    exact Bool.false_ne_true
  rw [reports, List.filter_append, List.filter_append, hregistration, hmain, List.append_nil,
    List.nil_append]
  exact filter_declReports hp fun f hf => callee?_ne_none hf

theorem onReturn_of_render_eq (hp : p.Walks) {d d' : Diagnostic} (hd : d ∈ p.reports)
    (hd' : d' ∈ p.reports) (h : d.render = d'.render) (honReturn : d'.onReturn = true) :
    d.onReturn = true := by
  have hmissing : d' ∈ p.reports.filter (·.onReturn) := List.mem_filter.mpr ⟨hd', honReturn⟩
  rw [filter_reports hp] at hmissing
  obtain ⟨f, -, rfl⟩ := List.mem_map.mp hmissing
  rcases placed_reports hp hd with ⟨v, loc, -, rfl⟩ | hmain
  · have hmessage := (Violation.of_render_located_eq h).2
    exact beq_iff_eq.mpr (Violation.code_of_message_eq_missingReturn hmessage)
  · rw [(mem_mainReports.mp hmain).2] at h
    exact absurd h.symm (Violation.render_located_ne _ _ _)

theorem texts_onReturn (hp : p.Walks) :
    (p.summary.diagnostics.filter (·.onReturn)).map Diagnostic.render =
      ((p.functions.filter (·.lacksReturn)).map (·.missingReturn.render)).eraseDups := by
  have hsame : ∀ d ∈ p.reports, ∀ d' ∈ p.reports, d.render = d'.render →
      d.onReturn = d'.onReturn := fun d hd d' hd' h =>
    Bool.eq_iff_iff.mpr ⟨onReturn_of_render_eq hp hd' hd h.symm, onReturn_of_render_eq hp hd hd' h⟩
  rw [summary, Sink.items_extend_empty, filter_firsts hsame fun _ _ _ => Iff.rfl, filter_reports hp,
    map_firsts_eq_eraseDups, List.map_map]
  rfl

end Program

/-- What a check shows is what the program contains: each function by the summary of its first
definition, the new global variables, and the functions that lack a `return`. -/
theorem ofProgram_contents {p : Program} {checked : Checked}
    (hp : Checked.ofProgram p = .ok checked) :
    checked.functions.entries =
        (firsts (·.name) [] p.functions).map (fun f => (f.name, f.summary)) ∧
      checked.globals = p.newVariables.map VarDecl.symbol ∧
      (checked.diagnostics.filter (·.onReturn)).map Diagnostic.render =
        ((p.functions.filter (·.lacksReturn)).map (·.missingReturn.render)).eraseDups := by
  obtain ⟨hwalks, rfl⟩ := ofProgram_eq_ok_iff.mp hp
  exact ⟨Program.entries_table_eq hwalks, globals_eq_firsts [] p.declarations,
    Program.texts_onReturn hwalks⟩

namespace Counting

open Diving (place)

def number (line : Int) (name : String) (value : Expr) : VarDecl where
  loc := place line
  name
  type := some "int"
  value := some value

/-- A function whose names are used again in inner frames, and one of its parameters in its own. -/
def count : FunctionDef where
  loc := place 1
  name := "count"
  params := [⟨place 1, "n", some "int"⟩]
  returnType := some "int"
  body := .mk (place 1)
    [.varDecl (number 2 "n" (.int (place 2) 0)),
     .forLoop ⟨3, 1, some 7⟩ (some (.varDecl (number 3 "i" (.int (place 3) 0))))
      (some (.binary (place 3) "<" (.name (place 3) "i") (.name (place 3) "n")))
      (some (.assign (place 3) "i" (some (.int (place 3) 9))))
      (.mk (place 3)
        [.ifThen ⟨4, 1, some 6⟩ (.name (place 4) "i")
          (.mk (place 4)
            [.varDecl (number 5 "i" (.call (place 5) "count" [.name (place 5) "n"])),
             .varDecl (number 6 "i" (.int (place 6) 1))]) none])]

/-- This program:
```
int count(int n) {
  int n = 0;
  for (int i = 0; i < n; i = 9) {
    if (i) {
      int i = count(n);
      int i = 1; }
  } }
```
-/
def program : Program where
  declarations := [.func count]

theorem program_contents :
    ∃ checked, Checked.ofProgram program = .ok checked ∧
      checked.functions.find? "count" = some count.summary ∧
      count.summary.locals.map (fun v => (v.name, v.line)) = [("i", 3), ("i", 5)] ∧
      count.summary.controls = [⟨.forLoop, 3, 7⟩, ⟨.ifThen, 4, 6⟩] ∧
      count.summary.isRecursive = true ∧ count.summary.hasReturn = false ∧
      checked.globals = [] ∧
      (checked.diagnostics.filter (·.onReturn)).map Diagnostic.render =
        [count.missingReturn.render] := by
  have hok : (Checked.ofProgram program).toOption.isSome = true := by decide +kernel
  cases hp : Checked.ofProgram program with
  | error e =>
    rw [hp] at hok
    cases hok
  | ok checked =>
    obtain ⟨hentries, hglobals, htexts⟩ := ofProgram_contents hp
    refine ⟨checked, rfl, ?_, rfl, rfl, rfl, rfl, hglobals, htexts⟩
    rw [FunctionTable.find?, hentries]
    rfl

end Counting

end Sema
