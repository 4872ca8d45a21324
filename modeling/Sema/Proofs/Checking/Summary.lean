import Sema.Proofs.Checking.Sites
import Sema.Proofs.Diagnostics.Sink

/-!
# What a check shows

A check succeeds just if every declaration can be walked at its site, and what it shows is then put
together from these walks (`ofProgram_eq_ok_iff`): the functions by their first definitions, the
global variables by their first declarations, and what the heads of the functions, the declarations
and the program as a whole report.
-/

namespace Sema

namespace Program

def callee? (p : Program) (name : String) : Option Signature :=
  (p.functions.find? (·.name == name)).map (·.entry.2.signature)

/-- The declarations with the global frames in which they stand. -/
def sites (p : Program) : List Site :=
  Sema.sites [] p.declarations

/-- The functions with the global frames in which they stand. -/
def functionSites (p : Program) : List (Scope × FunctionDef) :=
  Sema.functionSites [] p.declarations

def Walks (p : Program) : Prop :=
  ∀ site ∈ p.sites, site.Walks p.callee?

/-- The functions that a check shows: the first ones of each name. -/
def table (p : Program) : FunctionTable :=
  ⟨(firsts (·.2.name) [] p.functionSites).map (shownEntry p.callee?)⟩

def globals (p : Program) : List Symbol :=
  p.sites.flatMap Site.adds

def mainReports (p : Program) : List Diagnostic :=
  if ∃ f ∈ p.functions, f.name = mainName then [] else [Violation.missingMain.global]

def reports (p : Program) : List Diagnostic :=
  registrationReports [] p.functions ++ declReports p.callee? [] [] p.declarations ++ p.mainReports

def summary (p : Program) : Checked :=
  ⟨p.table, p.globals, (Sink.empty.extend p.reports).items⟩

end Program

theorem map_snd_functionSites (G : Scope) (ds : List Decl) :
    (functionSites G ds).map Prod.snd = ds.filterMap Decl.function? := by
  induction ds generalizing G with
  | nil => rfl
  | cons d ds ih =>
    cases d with
    | func f => exact congrArg (f :: ·) (ih _)
    | var d => exact ih _
    | unsupported => exact ih _

namespace Program

variable (p : Program)

theorem map_snd_functionSites : p.functionSites.map Prod.snd = p.functions :=
  Sema.map_snd_functionSites [] p.declarations

theorem map_snd_firsts_functionSites :
    (firsts (·.2.name) [] p.functionSites).map Prod.snd = firsts (·.name) [] p.functions := by
  rw [← map_snd_functionSites]
  exact map_firsts FunctionDef.name Prod.snd [] p.functionSites

theorem keys_table : p.table.keys = (p.functions.map (·.name)).eraseDups := by
  rw [← map_snd_functionSites, List.map_map]
  exact (List.map_map ..).trans map_firsts_eq_eraseDups

theorem find?_table (name : String) :
    p.table.find? name =
      (p.functionSites.find? (·.2.name == name)).map fun site => site.2.shown p.callee? site.1 := by
  have h := lookup_map_eq_find? (fun site : Scope × FunctionDef => site.2.name)
    (fun site => site.2.shown p.callee? site.1) (firsts (·.2.name) [] p.functionSites) name
  rw [find?_firsts (by simp)] at h
  exact h

theorem length_mains_table :
    (p.table.functions.filter (·.isMain)).length =
      if ∃ f ∈ p.functions, f.name = mainName then 1 else 0 := by
  have hcount : (p.table.functions.filter (·.isMain)).length = p.table.keys.count mainName := by
    simp only [FunctionTable.functions, FunctionTable.keys, table, List.map_map,
      List.count_eq_length_filter, List.filter_map, List.length_map]
    refine congrArg List.length (List.filter_congr fun site _ => ?_)
    exact congrArg FunctionSymbol.isMain (site.2.head_shown p.callee? site.1)
  have hnodup : p.table.keys.Nodup := by
    rw [FunctionTable.keys, table, List.map_map]
    exact nodup_map_firsts
  rw [hcount, hnodup.count]
  simp only [keys_table, List.mem_eraseDups, List.mem_map]

theorem find?_registered (name : String) :
    ((⟨(firsts (·.name) [] p.functions).map FunctionDef.entry⟩ : FunctionTable).find? name).map
        (·.signature) = p.callee? name := by
  have h := lookup_map_eq_find? FunctionDef.name (fun f => f.entry.2)
    (firsts (·.name) [] p.functions) name
  rw [find?_firsts (by simp)] at h
  refine (congrArg (Option.map _) h).trans ?_
  rw [Option.map_map]
  rfl

end Program

namespace Checking

theorem checkMain_gives_iff {p : Program} {c c' : Checker} {u : Unit}
    (hc : c.functions = p.table) :
    checkMain.Gives c u c' ↔ c' = { c with sink := c.sink.extend p.mainReports } := by
  have hmains := p.length_mains_table
  rw [← hc] at hmains
  rw [checkMain, CheckM.gives_modify, hmains, Program.mainReports]
  by_cases h : ∃ f ∈ p.functions, f.name = mainName
  · simp only [if_pos h, Sink.extend_nil]
  · simp only [if_neg h]
    rfl

def registered (p : Program) : Checker :=
  { Checker.empty with
    functions := ⟨(firsts (·.name) [] p.functions).map FunctionDef.entry⟩
    sink := Sink.empty.extend (registrationReports [] p.functions) }

theorem checkProgram_gives_iff {p : Program} {c' : Checker} {u : Unit} :
    (checkProgram p).Gives Checker.empty u c' ↔
      p.Walks ∧ c' = {
        scopes := ⟨[], p.declarations.foldl Decl.after []⟩
        functions := p.table
        globals := p.globals
        sink := Sink.empty.extend p.reports
        current := .nowhere } := by
  have hbetween : (registered p).Between p.callee? [] :=
    ⟨rfl, rfl, funext p.find?_registered⟩
  have hdecls : ∀ u c', (checkDecls [] p.declarations).Gives (registered p) u c' ↔ _ := fun u c' =>
    checkDecls_gives_iff [] hbetween rfl (by simp)
  rw [checkProgram, CheckM.gives_get_bind, CheckM.gives_bind]
  simp only [registerFunctions_gives_iff, exists_eq_left, exists_const]
  refine (CheckM.gives_bind_of_iff hdecls).trans (and_congr_right fun _ => ?_)
  rw [checkMain_gives_iff rfl]
  simp only [registered, ← Sink.extend_append]
  rfl

end Checking

/-- A check succeeds just if every declaration can be walked, and then shows the summary. -/
theorem ofProgram_eq_ok_iff {p : Program} {checked : Checked} :
    Checked.ofProgram p = .ok checked ↔ p.Walks ∧ checked = p.summary := by
  have hgives : ∀ c', (Checking.checkProgram p).Gives Checker.empty () c' ↔ _ := fun c' =>
    Checking.checkProgram_gives_iff
  rw [Checked.ofProgram]
  constructor
  · intro h
    split at h
    · next c' hrun =>
      obtain ⟨hwalks, rfl⟩ := (hgives c').mp hrun
      cases h
      exact ⟨hwalks, rfl⟩
    · cases h
  · rintro ⟨hwalks, rfl⟩
    have hrun := (hgives _).mpr ⟨hwalks, rfl⟩
    rw [show (Checking.checkProgram p).run Checker.empty = _ from hrun]
    rfl

/-! ## Reports -/

theorem mem_registrationReports {d : Diagnostic} {seen : List String} {fs : List FunctionDef} :
    d ∈ registrationReports seen fs ↔
      (∃ f ∈ fs, d ∈ f.headReports) ∨ ∃ f ∈ repeats (·.name) seen fs, d = f.duplicateReport := by
  induction fs generalizing seen with
  | nil => simp [registrationReports, repeats]
  | cons f fs ih =>
    rw [registrationReports, repeats]
    simp only [List.mem_append, ih, List.mem_cons, or_and_right, exists_or]
    by_cases h : f.name ∈ seen
    · simp only [if_pos h, List.mem_singleton, exists_eq_left]
      grind
    · simp only [if_neg h, List.not_mem_nil, false_and, exists_false, false_or]
      grind

theorem mem_declReports {callee? : String → Option Signature} {d : Diagnostic}
    {taken : List String} {G : Scope} {ds : List Decl} :
    d ∈ declReports callee? taken G ds ↔
      (∃ f ∈ repeats (·.name) taken (ds.filterMap Decl.function?),
          d ∈ typeReports f.returnType f.loc) ∨
        ∃ site ∈ sites G ds, d ∈ site.reports callee? := by
  induction ds generalizing G taken with
  | nil => simp [declReports, sites, repeats]
  | cons decl ds ih =>
    cases decl with
    | func f =>
      have hfunctions : (Decl.func f :: ds).filterMap Decl.function? =
          f :: ds.filterMap Decl.function? := rfl
      have hafter : (Decl.func f).after G = G := rfl
      rw [declReports, sites, hfunctions, hafter, repeats]
      simp only [List.mem_append, ih, List.mem_cons, or_and_right, exists_or]
      by_cases h : f.name ∈ taken
      · simp only [if_pos h, List.mem_singleton, exists_eq_left]
        grind
      · simp only [if_neg h, List.not_mem_nil, false_and, exists_false, false_or]
        grind
    | var v =>
      have hfunctions : (Decl.var v :: ds).filterMap Decl.function? =
          ds.filterMap Decl.function? := rfl
      rw [declReports, sites, hfunctions, List.mem_append, ih]
      · simp only [List.mem_cons, exists_eq_or_imp]
        exact or_left_comm
      · simp
    | unsupported =>
      have hfunctions : (Decl.unsupported :: ds).filterMap Decl.function? =
          ds.filterMap Decl.function? := rfl
      rw [declReports, sites, hfunctions, List.mem_append, ih]
      · simp only [List.mem_cons, exists_eq_or_imp]
        exact or_left_comm
      · simp

/-- What is reported: by the heads of the functions, on functions whose name is taken, by the
declarations at their sites and by the program as a whole. -/
theorem Program.mem_reports {p : Program} {d : Diagnostic} :
    d ∈ p.reports ↔
      (∃ f ∈ p.functions, d ∈ f.headReports) ∨
        (∃ f ∈ repeats (·.name) [] p.functions, d = f.duplicateReport) ∨
        (∃ site ∈ p.sites, d ∈ site.reports p.callee?) ∨ d ∈ p.mainReports := by
  have htypes : (∃ f ∈ repeats (·.name) [] p.functions, d ∈ typeReports f.returnType f.loc) →
      ∃ f ∈ p.functions, d ∈ f.headReports := by
    rintro ⟨f, hf, hd⟩
    exact ⟨f, sublist_repeats.subset hf, List.mem_append_left _ hd⟩
  rw [reports, List.mem_append, List.mem_append, mem_registrationReports, mem_declReports]
  constructor
  · rintro (((h | h) | (h | h)) | h)
    · exact .inl h
    · exact .inr (.inl h)
    · exact .inl (htypes h)
    · exact .inr (.inr (.inl h))
    · exact .inr (.inr (.inr h))
  · rintro (h | h | h | h)
    · exact .inl (.inl (.inl h))
    · exact .inl (.inl (.inr h))
    · exact .inl (.inr (.inr h))
    · exact .inr h

/-! ## Functions for examples -/

namespace Diving

def place (line : Int) : Location :=
  ⟨line, 1, none⟩

def depth (line : Int) : VarDecl where
  loc := place line
  name := "depth"
  type := some "int"
  value := some (.int (place line) 0)

/-- The entry point, which calls `dive` before it is defined. -/
def entry : FunctionDef where
  loc := place 2
  name := "main"
  params := []
  returnType := some "void"
  body := .mk (place 2) [.expr (place 2) (.call (place 2) "dive" [.name (place 2) "depth"])]

def dive : FunctionDef where
  loc := place 3
  name := "dive"
  params := [⟨place 3, "n", some "int"⟩]
  returnType := some "int"
  body := .mk (place 3)
    [.assign (place 3) "depth" (some (.call (place 3) "dive" [.name (place 3) "n"]))]

/-- A second function of the same name, which calls `main`. -/
def again : FunctionDef where
  loc := place 4
  name := "dive"
  params := []
  returnType := some "void"
  body := .mk (place 4) [.expr (place 4) (.call (place 4) "main" [])]

/-- With the functions as written here, this program:
```
int depth = 0;
void main() { dive(depth); }
int dive(int n) { depth = dive(n); }
void dive() { main(); }
int depth = 0;
```
-/
def program (functions : List FunctionDef) : Program where
  declarations := .var (depth 1) :: (functions.map .func ++ [.var (depth 5)])

end Diving

end Sema
