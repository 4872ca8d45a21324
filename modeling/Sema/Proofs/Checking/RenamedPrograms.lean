import Sema.Proofs.Checking.Renaming

/-!
# Renamed programs show the same

The check of a renamed program shows the functions and the global variables of the program by their
new names, and reports the same (`ofProgram_rename`). Since a check leaves out what is written as
something before it, this is more than doing the same at every place: two violations have to be
written alike before the renaming just if they are written alike after it. They are: names without
quotes can be read off the messages, so the written forms show the violations and their lines
(`PlacedViolation.render_eq_iff`), and the renaming keeps violations apart.
-/

namespace Sema

/-! ## Violations and where they are reported -/

/-- A violation at a place, or of the program as a whole. -/
structure PlacedViolation where
  violation : Violation
  place : Option Location

namespace PlacedViolation

def diagnostic (v : PlacedViolation) : Diagnostic :=
  match v.place with
  | some loc => v.violation.located loc
  | none => v.violation.global

def rename (ρ : Renaming) (v : PlacedViolation) : PlacedViolation :=
  { v with violation := v.violation.rename ρ }

/-- Without quotes in names, the written form shows the violation and its line. -/
theorem render_eq_iff {v w : PlacedViolation}
    (hv : ∀ i ∈ v.violation.identifiers, QuoteFree i.text)
    (hw : ∀ i ∈ w.violation.identifiers, QuoteFree i.text) :
    v.diagnostic.render = w.diagnostic.render ↔
      v.violation = w.violation ∧ v.place.map (·.line) = w.place.map (·.line) := by
  obtain ⟨v, place⟩ := v
  obtain ⟨w, place'⟩ := w
  cases place with
  | none =>
    cases place' with
    | none =>
      simp only [diagnostic, Violation.render_global, String.append_right_inj, Option.map_none,
        and_true]
      exact ⟨Violation.eq_of_message_eq hv hw, congrArg Violation.message⟩
    | some loc' => exact iff_of_false (Violation.render_located_ne w v loc').symm (by simp)
  | some loc =>
    cases place' with
    | none => exact iff_of_false (Violation.render_located_ne v w loc) (by simp)
    | some loc' =>
      simp only [diagnostic, Option.map_some, Option.some.injEq]
      constructor
      · intro h
        obtain ⟨hline, hmessage⟩ := Violation.of_render_located_eq h
        exact ⟨Violation.eq_of_message_eq hv hw hmessage, hline⟩
      · rintro ⟨rfl, hline⟩
        rw [Violation.render_located, Violation.render_located, hline]

end PlacedViolation

section

variable {ρ : Renaming} {p : Program}

theorem mem_map_iff_of_inj {f : String → String} {x : String} {ys : List String}
    (h : ∀ y ∈ ys, f y = f x ↔ y = x) : f x ∈ ys.map f ↔ x ∈ ys := by
  rw [List.mem_map]
  constructor
  · rintro ⟨y, hy, hxy⟩
    rwa [← (h y hy).mp hxy]
  · exact fun hx => ⟨x, hx, rfl⟩

namespace Renaming.Suits

theorem exists_inverse (hρ : ρ.Suits p) :
    ∃ ρ' : Renaming, ∀ i ∈ p.identifiers, ρ'.apply (ρ.apply i) = i := by
  let back (i : Identifier) : Identifier :=
    (p.identifiers.find? fun j => ρ.apply j = i).getD i
  refine ⟨⟨fun x => (back (.var x)).text, fun f => (back (.func f)).text⟩, fun i hi => ?_⟩
  have hback : back (ρ.apply i) = i := by
    cases hfind : p.identifiers.find? fun j => ρ.apply j = ρ.apply i with
    | none => simpa using List.find?_eq_none.mp hfind i hi
    | some j =>
      have hj : ρ.apply j = ρ.apply i := by simpa using List.find?_some hfind
      show (p.identifiers.find? _).getD _ = i
      rw [hfind, Option.getD_some]
      exact hρ.injective j (List.mem_of_find?_eq_some hfind) i hi hj
  cases i with
  | var x => exact congrArg (fun j => Identifier.var j.text) hback
  | func f => exact congrArg (fun j => Identifier.func j.text) hback

theorem rename_inj (hρ : ρ.Suits p) {v w : Violation} (hv : v.identifiers ⊆ p.identifiers)
    (hw : w.identifiers ⊆ p.identifiers) : v.rename ρ = w.rename ρ ↔ v = w := by
  refine ⟨fun h => ?_, congrArg (Violation.rename ρ)⟩
  obtain ⟨ρ', hρ'⟩ := hρ.exists_inverse
  rw [← Violation.rename_rename fun i hi => hρ' i (hv hi), h,
    Violation.rename_rename fun i hi => hρ' i (hw hi)]

theorem render_rename_iff (hρ : ρ.Suits p) {v w : PlacedViolation}
    (hv : v.violation.identifiers ⊆ p.identifiers) (hw : w.violation.identifiers ⊆ p.identifiers) :
    v.diagnostic.render = w.diagnostic.render ↔
      (v.rename ρ).diagnostic.render = (w.rename ρ).diagnostic.render := by
  have hfree : ∀ {u : PlacedViolation}, u.violation.identifiers ⊆ p.identifiers →
      ∀ i ∈ (u.rename ρ).violation.identifiers, QuoteFree i.text := by
    intro u hu i hi
    rw [PlacedViolation.rename, Violation.identifiers_rename] at hi
    obtain ⟨j, hj, rfl⟩ := List.mem_map.mp hi
    exact hρ.quoteFree_apply j (hu hj)
  rw [PlacedViolation.render_eq_iff (fun i hi => hρ.quoteFree i (hv hi))
      (fun i hi => hρ.quoteFree i (hw hi)),
    PlacedViolation.render_eq_iff (hfree hv) (hfree hw)]
  exact and_congr_left fun _ => (hρ.rename_inj hv hw).symm

theorem mem_map_var (hρ : ρ.Suits p) {x : String} (hx : .var x ∈ p.identifiers) {ys : List String}
    (hys : ∀ y ∈ ys, .var y ∈ p.identifiers) : ρ.var x ∈ ys.map ρ.var ↔ x ∈ ys :=
  mem_map_iff_of_inj fun y hy => hρ.var_inj (hys y hy) hx

theorem mem_map_func (hρ : ρ.Suits p) {f : String} (hf : .func f ∈ p.identifiers)
    {gs : List String} (hgs : ∀ g ∈ gs, .func g ∈ p.identifiers) :
    ρ.func f ∈ gs.map ρ.func ↔ f ∈ gs :=
  mem_map_iff_of_inj fun g hg => hρ.func_inj (hgs g hg) hf

end Renaming.Suits

/-! ## Reports -/

/-- The diagnostics `ds'` report what `ds` report, with the new names. -/
def RenamedReports (ρ : Renaming) (p : Program) (ds ds' : List Diagnostic) : Prop :=
  ∃ vs : List PlacedViolation, (∀ v ∈ vs, v.violation.identifiers ⊆ p.identifiers) ∧
    ds = vs.map (·.diagnostic) ∧ ds' = vs.map fun v => (v.rename ρ).diagnostic

namespace RenamedReports

variable {ds ds' es es' : List Diagnostic}

theorem nil : RenamedReports ρ p [] [] :=
  ⟨[], List.forall_mem_nil _, rfl, rfl⟩

theorem append (h : RenamedReports ρ p ds ds') (h' : RenamedReports ρ p es es') :
    RenamedReports ρ p (ds ++ es) (ds' ++ es') := by
  obtain ⟨vs, hvs, rfl, rfl⟩ := h
  obtain ⟨ws, hws, rfl, rfl⟩ := h'
  exact ⟨vs ++ ws, List.forall_mem_append.mpr ⟨hvs, hws⟩, by simp, by simp⟩

theorem located (v : Violation) (loc : Location) (h : v.identifiers ⊆ p.identifiers) :
    RenamedReports ρ p [v.located loc] [(v.rename ρ).located loc] :=
  ⟨[⟨v, some loc⟩], by simpa using h, rfl, rfl⟩

theorem ite {c c' : Prop} [Decidable c] [Decidable c'] (hc : c' ↔ c)
    (h : RenamedReports ρ p ds ds') :
    RenamedReports ρ p (if c then ds else []) (if c' then ds' else []) := by
  by_cases hcond : c
  · rwa [if_pos hcond, if_pos (hc.mpr hcond)]
  · rw [if_neg hcond, if_neg (mt hc.mp hcond)]
    exact nil

theorem of_findings {fs : List Finding} (h : ∀ finding ∈ fs, finding.identifiers ⊆ p.identifiers) :
    RenamedReports ρ p (fs.filterMap Finding.diagnostic?)
      ((fs.map (Finding.rename ρ)).filterMap Finding.diagnostic?) := by
  induction fs with
  | nil => exact nil
  | cons finding fs ih =>
    rw [List.forall_mem_cons] at h
    cases finding with
    | violation v loc => exact (located v loc h.1).append (ih h.2)
    | _ => exact ih h.2

theorem typeReports (name : Option String) (loc : Location) :
    RenamedReports ρ p (typeReports name loc) (Sema.typeReports name loc) := by
  unfold Sema.typeReports
  cases Ty.resolve name with
  | ok τ => exact nil
  | error e => exact located (.undefinedType e) loc (List.nil_subset _)

theorem kept (hρ : ρ.Suits p) (h : RenamedReports ρ p ds ds') :
    ((Sink.empty.extend ds').items.map fun d => (d.code, d.line, d.column)) =
      (Sink.empty.extend ds).items.map fun d => (d.code, d.line, d.column) := by
  obtain ⟨vs, hvs, rfl, rfl⟩ := h
  have hsame : firsts (fun v : PlacedViolation => v.diagnostic.render) [] vs =
      firsts (fun v => (v.rename ρ).diagnostic.render) [] vs :=
    firsts_congr_key [] fun v hv w hw => hρ.render_rename_iff (hvs v hv) (hvs w hw)
  rw [Sink.items_extend_empty, Sink.items_extend_empty, ← map_firsts, ← map_firsts, hsame,
    List.map_map, List.map_map]
  refine List.map_congr_left fun v _ => ?_
  obtain ⟨v, place⟩ := v
  cases place <;>
    simp [PlacedViolation.diagnostic, PlacedViolation.rename, Violation.located, Violation.global,
      Violation.code_rename]

end RenamedReports

/-! ## Heads of functions -/

theorem Program.identifiers_subset {d : Decl} (h : d ∈ p.declarations) :
    d.identifiers ⊆ p.identifiers := by
  intro i hi
  exact List.mem_cons_of_mem _ (List.mem_flatMap.mpr ⟨d, h, hi⟩)

theorem Program.function_identifiers_subset {f : FunctionDef} (h : f ∈ p.functions) :
    f.identifiers ⊆ p.identifiers := by
  obtain ⟨d, hd, hf⟩ := List.mem_filterMap.mp h
  cases d with
  | func f' =>
    cases hf
    exact Program.identifiers_subset hd
  | _ => cases hf

namespace FunctionDef

variable {f : FunctionDef}

theorem name_mem (h : f.identifiers ⊆ p.identifiers) : .func f.name ∈ p.identifiers :=
  h List.mem_cons_self

theorem param_mem (h : f.identifiers ⊆ p.identifiers) {param : Param} (hparam : param ∈ f.params) :
    .var param.name ∈ p.identifiers := by
  apply h
  rw [identifiers]
  exact List.mem_cons_of_mem _ (List.mem_append_left _ (List.mem_map.mpr ⟨param, hparam, rfl⟩))

theorem entry_rename (hρ : ρ.Suits p) (h : f.identifiers ⊆ p.identifiers) :
    (f.rename ρ).entry = (ρ.func f.name, f.entry.2.rename ρ) := by
  have hmain : (ρ.func f.name == mainName) = (f.name == mainName) := by
    rw [Bool.eq_iff_iff, beq_iff_eq, beq_iff_eq]
    exact hρ.func_eq_main_iff (name_mem h)
  simp only [entry, rename, FunctionDef.symbol, FunctionSymbol.rename, hmain, List.map_map]
  rfl

theorem signature_rename (hρ : ρ.Suits p) (h : f.identifiers ⊆ p.identifiers) :
    (f.rename ρ).entry.2.signature = f.entry.2.signature := by
  rw [entry_rename hρ h]
  simp [FunctionSymbol.signature, FunctionSymbol.rename, Symbol.rename]

end FunctionDef

theorem Program.callee?_rename (hρ : ρ.Suits p) {func : String}
    (hfunc : .func func ∈ p.identifiers) :
    (p.rename ρ).callee? (ρ.func func) = p.callee? func := by
  have hfunctions : ∀ f ∈ p.functions, f.identifiers ⊆ p.identifiers := fun f hf =>
    Program.function_identifiers_subset hf
  rw [callee?, callee?, functions_rename]
  generalize p.functions = fs at hfunctions
  induction fs with
  | nil => rfl
  | cons f fs ih =>
    rw [List.forall_mem_cons] at hfunctions
    have hname : ((f.rename ρ).name == ρ.func func) = (f.name == func) := by
      rw [Bool.eq_iff_iff, beq_iff_eq, beq_iff_eq]
      exact hρ.func_inj (FunctionDef.name_mem hfunctions.1) hfunc
    rw [List.map_cons, List.find?_cons, List.find?_cons, hname]
    cases f.name == func with
    | true => exact congrArg some (FunctionDef.signature_rename hρ hfunctions.1)
    | false => exact ih hfunctions.2

theorem RenamedReports.paramReports (hρ : ρ.Suits p) {func : String}
    (hfunc : .func func ∈ p.identifiers) {seen : List String} {ps : List Param}
    (hseen : ∀ x ∈ seen, .var x ∈ p.identifiers)
    (hps : ∀ param ∈ ps, .var param.name ∈ p.identifiers) :
    RenamedReports ρ p (paramReports func seen ps)
      (Sema.paramReports (ρ.func func) (seen.map ρ.var) (ps.map (Param.rename ρ))) := by
  induction ps generalizing seen with
  | nil => exact nil
  | cons param ps ih =>
    rw [List.forall_mem_cons] at hps
    have hmem : [Identifier.var param.name, Identifier.func func] ⊆ p.identifiers := by
      simpa using ⟨hps.1, hfunc⟩
    have hduplicate : (seen.map ρ.var).contains (ρ.var param.name) = true ↔
        seen.contains param.name = true := by
      rw [List.contains_iff_mem, List.contains_iff_mem, hρ.mem_map_var hps.1 hseen]
    have hrest := @ih (param.name :: seen) (List.forall_mem_cons.mpr ⟨hps.1, hseen⟩) hps.2
    rw [Sema.paramReports, List.map_cons, Sema.paramReports]
    exact (ite hduplicate (located (.duplicateParameter param.name func) param.loc hmem)).append
      ((typeReports param.type param.loc).append hrest)

theorem RenamedReports.headReports (hρ : ρ.Suits p) {f : FunctionDef}
    (h : f.identifiers ⊆ p.identifiers) :
    RenamedReports ρ p f.headReports (f.rename ρ).headReports :=
  (typeReports f.returnType f.loc).append
    (paramReports hρ (FunctionDef.name_mem h) (List.forall_mem_nil _)
      fun _ => FunctionDef.param_mem h)

theorem RenamedReports.registrationReports (hρ : ρ.Suits p) {seen : List String}
    {fs : List FunctionDef} (hseen : ∀ g ∈ seen, .func g ∈ p.identifiers)
    (hfs : ∀ f ∈ fs, f.identifiers ⊆ p.identifiers) :
    RenamedReports ρ p (registrationReports seen fs)
      (Sema.registrationReports (seen.map ρ.func) (fs.map (FunctionDef.rename ρ))) := by
  induction fs generalizing seen with
  | nil => exact nil
  | cons f fs ih =>
    rw [List.forall_mem_cons] at hfs
    have hname := FunctionDef.name_mem hfs.1
    have hmem : [Identifier.func f.name] ⊆ p.identifiers := by simpa using hname
    have hrest := @ih (f.name :: seen) (List.forall_mem_cons.mpr ⟨hname, hseen⟩) hfs.2
    rw [Sema.registrationReports, List.map_cons, Sema.registrationReports]
    exact (headReports hρ hfs.1).append ((ite (hρ.mem_map_func hname hseen)
      (located (.duplicateFunction f.name) f.loc hmem)).append hrest)

theorem RenamedReports.mainReports (hρ : ρ.Suits p) :
    RenamedReports ρ p p.mainReports (p.rename ρ).mainReports := by
  have hmain : (∃ f ∈ (p.rename ρ).functions, f.name = mainName) ↔
      ∃ f ∈ p.functions, f.name = mainName := by
    have hiff : ∀ f ∈ p.functions, (f.rename ρ).name = mainName ↔ f.name = mainName :=
      fun f hf =>
        hρ.func_eq_main_iff (FunctionDef.name_mem (Program.function_identifiers_subset hf))
    rw [Program.functions_rename]
    constructor
    · rintro ⟨_, hmem, hname⟩
      obtain ⟨f, hf, rfl⟩ := List.mem_map.mp hmem
      exact ⟨f, hf, (hiff f hf).mp hname⟩
    · rintro ⟨f, hf, hname⟩
      exact ⟨_, List.mem_map_of_mem hf, (hiff f hf).mpr hname⟩
  rw [Program.mainReports, Program.mainReports]
  by_cases h : ∃ f ∈ p.functions, f.name = mainName
  · rw [if_pos h, if_pos (hmain.mpr h)]
    exact nil
  · rw [if_neg h, if_neg (mt hmain.mp h)]
    exact ⟨[⟨.missingMain, none⟩], by simp [Violation.identifiers], rfl, rfl⟩

/-! ## Declarations -/

def Site.rename (ρ : Renaming) (site : Site) : Site :=
  ⟨Scope.rename ρ site.globals, site.decl.rename ρ⟩

/-- Whether the names at a site are names of the program. -/
structure Site.Within (p : Program) (site : Site) : Prop where
  globals : site.globals.Within p
  decl : site.decl.identifiers ⊆ p.identifiers

namespace Decl

variable {G : Scope} {d : Decl}

theorem adds_rename (hρ : ρ.Suits p) (hG : G.Within p) (hd : d.identifiers ⊆ p.identifiers) :
    (d.rename ρ).adds (Scope.rename ρ G) = (d.adds G).map (Symbol.rename ρ) := by
  cases d with
  | var d =>
    have hlookup := lookup_rename hρ hG (hd List.mem_cons_self : .var d.name ∈ p.identifiers)
    simp only [adds, rename]
    rw [show (d.rename ρ).name = ρ.var d.name from rfl, hlookup, Option.isSome_map]
    split <;> rfl
  | _ => rfl

theorem after_rename (hρ : ρ.Suits p) (hG : G.Within p) (hd : d.identifiers ⊆ p.identifiers) :
    (d.rename ρ).after (Scope.rename ρ G) = Scope.rename ρ (d.after G) := by
  rw [after, after, adds_rename hρ hG hd, Scope.rename, Scope.rename, List.map_append, List.map_map,
    List.map_map]
  rfl

theorem after_within (hG : G.Within p) (hd : d.identifiers ⊆ p.identifiers) :
    (d.after G).Within p := by
  cases d with
  | var d =>
    rw [after, adds]
    split
    · exact hG
    · exact List.forall_mem_cons.mpr ⟨hd List.mem_cons_self, hG⟩
  | _ => exact hG

theorem walk_renames (hρ : ρ.Suits p) (hd : d.identifiers ⊆ p.identifiers) :
    d.walk.Renames ρ p Eq (d.rename ρ).walk := by
  cases d with
  | func f => exact Checking.checkBody_renames hρ hd
  | var d => exact Checking.checkVarDecl_renames hρ .global hd
  | unsupported => exact .fail _

theorem env_renamed (hρ : ρ.Suits p) (hd : d.identifiers ⊆ p.identifiers) :
    Env.Renamed ρ p ⟨p.callee?, d.caller?⟩ ⟨(p.rename ρ).callee?, (d.rename ρ).caller?⟩ where
  callee _ hfunc := Program.callee?_rename hρ hfunc
  caller := by cases d <;> rfl
  caller_mem c hc := by
    cases d with
    | func f =>
      cases hc
      exact FunctionDef.name_mem hd
    | _ => cases hc

end Decl

theorem within_sites {G : Scope} {ds : List Decl} (hG : G.Within p)
    (hds : ∀ d ∈ ds, d.identifiers ⊆ p.identifiers) : ∀ site ∈ sites G ds, site.Within p := by
  induction ds generalizing G with
  | nil => exact List.forall_mem_nil _
  | cons d ds ih =>
    rw [List.forall_mem_cons] at hds
    rw [sites, List.forall_mem_cons]
    exact ⟨⟨hG, hds.1⟩, ih (Decl.after_within hG hds.1) hds.2⟩

theorem sites_rename (hρ : ρ.Suits p) {G : Scope} {ds : List Decl} (hG : G.Within p)
    (hds : ∀ d ∈ ds, d.identifiers ⊆ p.identifiers) :
    sites (Scope.rename ρ G) (ds.map (Decl.rename ρ)) = (sites G ds).map (Site.rename ρ) := by
  induction ds generalizing G with
  | nil => rfl
  | cons d ds ih =>
    rw [List.forall_mem_cons] at hds
    rw [List.map_cons, sites, sites, List.map_cons, Decl.after_rename hρ hG hds.1,
      ih (Decl.after_within hG hds.1) hds.2]
    rfl

namespace Site

variable {site : Site}

theorem walked_rename (hρ : ρ.Suits p) (hsite : site.Within p) (h : site.Walks p.callee?) :
    (site.rename ρ).Walks (p.rename ρ).callee? ∧
      ((site.rename ρ).walked (p.rename ρ).callee?).findings =
        (site.walked p.callee?).findings.map (Finding.rename ρ) ∧
      ∀ finding ∈ (site.walked p.callee?).findings, finding.identifiers ⊆ p.identifiers := by
  have hglobals : ScopeStack.Within p ⟨[], site.globals⟩ := by
    simpa [ScopeStack.Within, ScopeStack.frames] using hsite.globals
  obtain ⟨s', fs, hwalked⟩ := walks_iff.mp h
  obtain ⟨-, hfs, _, -, hgives⟩ := Decl.walk_renames hρ hsite.decl _ _ _ _ _ _
    (Decl.env_renamed hρ hsite.decl) hglobals hwalked
  have hwalked' : (site.rename ρ).walked (p.rename ρ).callee? = _ := hgives
  rw [Walks, hwalked', hwalked]
  exact ⟨rfl, rfl, hfs⟩

theorem renamedReports (hρ : ρ.Suits p) (hsite : site.Within p) (h : site.Walks p.callee?) :
    RenamedReports ρ p (site.reports p.callee?) ((site.rename ρ).reports (p.rename ρ).callee?) := by
  obtain ⟨-, hfindings, hmem⟩ := walked_rename hρ hsite h
  rw [reports, reports, hfindings]
  refine (RenamedReports.of_findings hmem).append ?_
  obtain ⟨G, d⟩ := site
  cases d with
  | func f =>
    have hname : [Identifier.func f.name] ⊆ p.identifiers := by
      simpa using FunctionDef.name_mem hsite.decl
    have hreturned : ∀ fs : List Finding,
        .returned ∈ fs.map (Finding.rename ρ) ↔ .returned ∈ fs := by
      intro fs
      rw [List.mem_map]
      constructor
      · rintro ⟨finding, hfinding, hsame⟩
        cases finding <;> first | exact hfinding | cases hsame
      · exact fun hfs => ⟨_, hfs, rfl⟩
    exact .ite (and_congr_right fun _ => not_congr (hreturned _))
      (.located (.missingReturn f.name (Ty.named f.returnType)) f.loc hname)
  | _ => exact .nil

end Site

theorem RenamedReports.declReports (hρ : ρ.Suits p) {taken : List String} {G : Scope}
    {ds : List Decl} (htaken : ∀ g ∈ taken, .func g ∈ p.identifiers)
    (hsites : ∀ site ∈ sites G ds, site.Within p ∧ site.Walks p.callee?) :
    RenamedReports ρ p (declReports p.callee? taken G ds)
      (Sema.declReports (p.rename ρ).callee? (taken.map ρ.func) (Scope.rename ρ G)
        (ds.map (Decl.rename ρ))) := by
  induction ds generalizing taken G with
  | nil => exact nil
  | cons d ds ih =>
    rw [sites, List.forall_mem_cons] at hsites
    obtain ⟨⟨hwithin, hwalks⟩, hrest⟩ := hsites
    have hreports := Site.renamedReports hρ hwithin hwalks
    have hafter := Decl.after_rename hρ hwithin.globals hwithin.decl
    cases d with
    | func f =>
      have hname := FunctionDef.name_mem hwithin.decl
      have htaken' : ∀ g ∈ f.name :: taken, .func g ∈ p.identifiers :=
        List.forall_mem_cons.mpr ⟨hname, htaken⟩
      exact ((ite (hρ.mem_map_func hname htaken) (typeReports f.returnType f.loc)).append
        hreports).append (ih htaken' hrest)
    | var d =>
      have hrest' := ih htaken hrest
      rw [← hafter] at hrest'
      exact hreports.append hrest'
    | unsupported => exact hreports.append (ih htaken hrest)

/-! ## Programs -/

namespace FunctionSymbol

theorem rename_foldl_note (ρ : Renaming) (f : FunctionSymbol) (fs : List Finding) :
    (fs.foldl note f).rename ρ = (fs.map (Finding.rename ρ)).foldl note (f.rename ρ) := by
  induction fs generalizing f with
  | nil => rfl
  | cons finding fs ih =>
    have hnote : (f.note finding).rename ρ = (f.rename ρ).note (finding.rename ρ) := by
      cases finding <;> simp [note, rename, Finding.rename]
    rw [List.foldl_cons, ih, hnote]
    rfl

end FunctionSymbol

theorem FunctionDef.shown_rename (hρ : ρ.Suits p) {G : Scope} {f : FunctionDef}
    (hsite : (Site.mk G (.func f)).Within p) (h : (Site.mk G (.func f)).Walks p.callee?) :
    (f.rename ρ).shown (p.rename ρ).callee? (Scope.rename ρ G) =
      (f.shown p.callee? G).rename ρ := by
  obtain ⟨-, hfindings, -⟩ := Site.walked_rename hρ hsite h
  rw [shown, shown, FunctionSymbol.rename_foldl_note, ← hfindings, entry_rename hρ hsite.decl]
  rfl

namespace Program

theorem within_sites (p : Program) : ∀ site ∈ p.sites, site.Within p :=
  Sema.within_sites (List.forall_mem_nil _) fun _ => identifiers_subset

theorem sites_rename (hρ : ρ.Suits p) : (p.rename ρ).sites = p.sites.map (Site.rename ρ) :=
  Sema.sites_rename hρ (List.forall_mem_nil _) fun _ => identifiers_subset

theorem walks_rename (hρ : ρ.Suits p) (hp : p.Walks) : (p.rename ρ).Walks := by
  intro site' hsite'
  rw [sites_rename hρ] at hsite'
  obtain ⟨site, hsite, rfl⟩ := List.mem_map.mp hsite'
  exact (Site.walked_rename hρ (p.within_sites site hsite) (hp site hsite)).1

theorem globals_rename (hρ : ρ.Suits p) :
    (p.rename ρ).globals = p.globals.map (Symbol.rename ρ) := by
  rw [globals, globals, sites_rename hρ, List.flatMap_map, List.map_flatMap, List.flatMap_def,
    List.flatMap_def]
  refine congrArg List.flatten (List.map_congr_left fun site hsite => ?_)
  have hwithin := p.within_sites site hsite
  exact Decl.adds_rename hρ hwithin.globals hwithin.decl

theorem functionSites_rename (hρ : ρ.Suits p) :
    (p.rename ρ).functionSites =
      p.functionSites.map fun site => (Scope.rename ρ site.1, site.2.rename ρ) := by
  have hsites : sites (p.rename ρ) = _ := sites_rename hρ
  show (p.rename ρ).sites.filterMap Site.function? = (p.sites.filterMap Site.function?).map _
  rw [hsites, List.filterMap_map, List.map_filterMap]
  refine congrArg (List.filterMap · p.sites) (funext fun site => ?_)
  obtain ⟨G, d⟩ := site
  cases d <;> rfl

theorem table_rename (hρ : ρ.Suits p) (hp : p.Walks) :
    (p.rename ρ).table.entries =
      p.table.entries.map fun entry => (ρ.func entry.1, entry.2.rename ρ) := by
  have hname : ∀ site ∈ p.functionSites, .func site.2.name ∈ p.identifiers := fun site hsite =>
    FunctionDef.name_mem (p.within_sites _ (mem_sites_of_mem_functionSites hsite)).decl
  have hkeys : firsts (fun site : Scope × FunctionDef => site.2.name) [] p.functionSites =
      firsts (fun site => ρ.func site.2.name) [] p.functionSites :=
    firsts_congr_key [] fun site hsite site' hsite' =>
      (hρ.func_inj (hname site hsite) (hname site' hsite')).symm
  simp only [table, functionSites_rename hρ, ← map_firsts, List.map_map]
  rw [hkeys]
  refine List.map_congr_left fun site hsite => ?_
  have hsite' := mem_sites_of_mem_functionSites (sublist_firsts.subset hsite)
  exact Prod.ext rfl (FunctionDef.shown_rename hρ (p.within_sites _ hsite') (hp _ hsite'))

theorem renamedReports (hρ : ρ.Suits p) (hp : p.Walks) :
    RenamedReports ρ p p.reports (p.rename ρ).reports := by
  have hfunctions : ∀ f ∈ p.functions, f.identifiers ⊆ p.identifiers := fun f hf =>
    function_identifiers_subset hf
  have hsites : ∀ site ∈ p.sites, site.Within p ∧ site.Walks p.callee? := fun site hsite =>
    ⟨p.within_sites site hsite, hp site hsite⟩
  have hheads := RenamedReports.registrationReports hρ (List.forall_mem_nil _) hfunctions
  rw [← functions_rename] at hheads
  exact (hheads.append (.declReports hρ (List.forall_mem_nil _) hsites)).append (.mainReports hρ)

end Program

/-- The check of a program with new names shows its functions and its global variables by these
names, and reports the same at the same places in the same order. -/
theorem ofProgram_rename {checked : Checked} (hρ : ρ.Suits p)
    (h : Checked.ofProgram p = .ok checked) :
    ∃ checked', Checked.ofProgram (p.rename ρ) = .ok checked' ∧
      (checked'.diagnostics.map fun d => (d.code, d.line, d.column)) =
        (checked.diagnostics.map fun d => (d.code, d.line, d.column)) ∧
      checked'.globals = checked.globals.map (Symbol.rename ρ) ∧
      checked'.functions.entries =
        checked.functions.entries.map fun entry => (ρ.func entry.1, entry.2.rename ρ) := by
  obtain ⟨hwalks, rfl⟩ := ofProgram_eq_ok_iff.mp h
  refine ⟨(p.rename ρ).summary, ofProgram_eq_ok_iff.mpr ⟨p.walks_rename hρ hwalks, rfl⟩, ?_,
    p.globals_rename hρ, p.table_rename hρ hwalks⟩
  exact (p.renamedReports hρ hwalks).kept hρ

end

namespace Diving

/-- The two variables change their names, and one function gets a new one. -/
def newNames : Renaming where
  var name := if name = "depth" then "n" else if name = "n" then "depth" else name
  func name := if name = "dive" then "plunge" else name

theorem program_renamed :
    newNames.Suits (program [entry, dive, again]) ∧
      ∃ checked checked', Checked.ofProgram (program [entry, dive, again]) = .ok checked ∧
        Checked.ofProgram ((program [entry, dive, again]).rename newNames) = .ok checked' ∧
        checked'.diagnostics.map (·.code) = [.duplicateDeclaration, .missingReturn,
          .illegalMainCall, .duplicateDeclaration] ∧
        checked'.globals.map (·.name) = ["n"] ∧ checked'.functions.keys = ["main", "plunge"] := by
  have hsuits : newNames.Suits (program [entry, dive, again]) :=
    ⟨by decide +kernel, by decide, by decide +kernel, by decide +kernel⟩
  have hshown : ((Checked.ofProgram (program [entry, dive, again])).toOption.map fun checked =>
      (checked.diagnostics.map (·.code), checked.globals, checked.functions.keys)) =
        some ([.duplicateDeclaration, .missingReturn, .illegalMainCall, .duplicateDeclaration],
          [(depth 1).symbol], ["main", "dive"]) := by
    decide +kernel
  cases hp : Checked.ofProgram (program [entry, dive, again]) with
  | error e =>
    rw [hp] at hshown
    cases hshown
  | ok checked =>
    simp only [hp, Except.toOption, Option.map_some, Option.some.injEq, Prod.mk.injEq] at hshown
    obtain ⟨hcodes, hglobals, hkeys⟩ := hshown
    obtain ⟨checked', hp', hdiagnostics, hglobals', hentries⟩ := ofProgram_rename hsuits hp
    refine ⟨hsuits, checked, checked', rfl, hp', ?_, ?_, ?_⟩
    · simpa [hcodes, Function.comp_def] using congrArg (List.map Prod.fst) hdiagnostics
    · rw [hglobals', hglobals]
      rfl
    · have hkeys' : checked'.functions.keys = checked.functions.keys.map newNames.func := by
        rw [FunctionTable.keys, hentries, FunctionTable.keys, List.map_map, List.map_map]
        rfl
      rw [hkeys', hkeys]
      rfl

end Diving

end Sema
