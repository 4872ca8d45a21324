import Sema.Proofs.Checking.Summary

/-!
# The order of functions

Functions may be reordered between two other declarations, as long as those of one name keep their
order (`Rearranged`). Their sites are then the same up to order, so that a check of the reordered
declarations succeeds as well, shows the same functions and global variables and reports the same
texts (`ofProgram_of_rearranged`).
-/

namespace Sema

/-- The declarations differ in the order of functions that follow on one another; functions of one
name are in the same order. -/
inductive Rearranged : List Decl → List Decl → Prop where
  | nil : Rearranged [] []
  | run {fs fs' : List FunctionDef} {ds ds' : List Decl} (perm : fs.Perm fs')
      (order : ∀ name, fs.filter (·.name == name) = fs'.filter (·.name == name))
      (rest : Rearranged ds ds') : Rearranged (fs.map .func ++ ds) (fs'.map .func ++ ds')
  | other {d : Decl} {ds ds' : List Decl} (other : d.function? = none)
      (rest : Rearranged ds ds') : Rearranged (d :: ds) (d :: ds')

/-! ## Sites of functions that follow on one another -/

theorem sites_functions_append (G : Scope) (fs : List FunctionDef) (ds : List Decl) :
    sites G (fs.map .func ++ ds) = fs.map (fun f => ⟨G, .func f⟩) ++ sites G ds := by
  induction fs with
  | nil => rfl
  | cons f fs ih => exact congrArg (_ :: ·) ih

theorem functionSites_functions_append (G : Scope) (fs : List FunctionDef) (ds : List Decl) :
    functionSites G (fs.map .func ++ ds) = fs.map (G, ·) ++ functionSites G ds := by
  induction fs with
  | nil => rfl
  | cons f fs ih => exact congrArg ((G, f) :: ·) ih

namespace Rearranged

variable {ds ds' : List Decl}

theorem sites_perm (h : Rearranged ds ds') (G : Scope) : (sites G ds).Perm (sites G ds') := by
  induction h generalizing G with
  | nil => exact .nil
  | run perm _ _ ih =>
    rw [sites_functions_append, sites_functions_append]
    exact (perm.map _).append (ih G)
  | other _ _ ih => exact (ih _).cons _

theorem adds_eq (h : Rearranged ds ds') (G : Scope) :
    (sites G ds).flatMap Site.adds = (sites G ds').flatMap Site.adds := by
  have hrun : ∀ (G : Scope) (fs : List FunctionDef),
      (fs.map fun f => Site.mk G (.func f)).flatMap Site.adds = [] := by
    intro G fs
    rw [List.flatMap_map, List.flatMap_eq_nil_iff]
    exact fun _ _ => rfl
  induction h generalizing G with
  | nil => rfl
  | run _ _ _ ih =>
    rw [sites_functions_append, sites_functions_append, List.flatMap_append, List.flatMap_append,
      hrun, hrun, ih]
  | other _ _ ih =>
    rw [sites, sites, List.flatMap_cons, List.flatMap_cons, ih]

theorem functionSites_filter (h : Rearranged ds ds') (G : Scope) (name : String) :
    (functionSites G ds).filter (·.2.name == name) =
      (functionSites G ds').filter (·.2.name == name) := by
  induction h generalizing G with
  | nil => rfl
  | run _ order _ ih =>
    rw [functionSites_functions_append, functionSites_functions_append, List.filter_append,
      List.filter_append, ih, List.filter_map, List.filter_map]
    exact congrArg (·.map (G, ·) ++ _) (order name)
  | @other d _ _ other _ ih =>
    have hskip : ∀ ds, functionSites G (d :: ds) = functionSites (d.after G) ds := by
      intro ds
      rw [functionSites, sites, List.filterMap_cons_none (by rw [Site.function?, other]; rfl)]
      rfl
    rw [hskip, hskip, ih]

end Rearranged

/-! ## Programs -/

section programs

variable {p p' : Program} (h : Rearranged p.declarations p'.declarations)

include h

theorem functions_filter_of_rearranged (name : String) :
    p.functions.filter (·.name == name) = p'.functions.filter (·.name == name) := by
  have hsites := congrArg (List.map Prod.snd) (h.functionSites_filter [] name)
  rw [← p.map_snd_functionSites, ← p'.map_snd_functionSites, List.filter_map, List.filter_map]
  exact hsites

theorem mem_functions_of_rearranged (f : FunctionDef) : f ∈ p.functions ↔ f ∈ p'.functions := by
  have hmem : ∀ fs : List FunctionDef, f ∈ fs ↔ f ∈ fs.filter (·.name == f.name) := by
    simp [List.mem_filter]
  rw [hmem p.functions, functions_filter_of_rearranged h, ← hmem]

theorem callee?_of_rearranged : p.callee? = p'.callee? := by
  funext name
  rw [Program.callee?, Program.callee?, ← List.head?_filter, ← List.head?_filter,
    functions_filter_of_rearranged h]

theorem walks_of_rearranged (hp : p.Walks) : p'.Walks := by
  intro site hsite
  rw [← callee?_of_rearranged h]
  exact hp site ((h.sites_perm []).mem_iff.mpr hsite)

theorem find?_table_of_rearranged (name : String) :
    p.table.find? name = p'.table.find? name := by
  rw [Program.find?_table, Program.find?_table, callee?_of_rearranged h, ← List.head?_filter,
    ← List.head?_filter, Program.functionSites, Program.functionSites, h.functionSites_filter]

theorem mem_reports_of_rearranged (d : Diagnostic) : d ∈ p.reports ↔ d ∈ p'.reports := by
  have hrepeats : ∀ f,
      f ∈ repeats (·.name) [] p.functions ↔ f ∈ repeats (·.name) [] p'.functions := by
    intro f
    rw [mem_repeats_iff (by simp), mem_repeats_iff (by simp), functions_filter_of_rearranged h]
  have hsites : ∀ site, site ∈ p.sites ↔ site ∈ p'.sites := fun _ => (h.sites_perm []).mem_iff
  rw [Program.mem_reports, Program.mem_reports, Program.mainReports, Program.mainReports]
  simp only [mem_functions_of_rearranged h, hrepeats, hsites, callee?_of_rearranged h]

/-- Reordering functions between other declarations changes neither what is shown nor which texts
are reported. -/
theorem ofProgram_of_rearranged {checked : Checked} (hp : Checked.ofProgram p = .ok checked) :
    ∃ checked', Checked.ofProgram p' = .ok checked' ∧
      (∀ text, text ∈ checked'.diagnostics.map Diagnostic.render ↔
        text ∈ checked.diagnostics.map Diagnostic.render) ∧
      checked'.globals = checked.globals ∧
      ∀ name, checked'.functions.find? name = checked.functions.find? name := by
  obtain ⟨hwalks, rfl⟩ := ofProgram_eq_ok_iff.mp hp
  refine ⟨p'.summary, ofProgram_eq_ok_iff.mpr ⟨walks_of_rearranged h hwalks, rfl⟩, fun text => ?_,
    (h.adds_eq []).symm, fun name => (find?_table_of_rearranged h name).symm⟩
  rw [Program.summary, Program.summary, Sink.mem_texts_iff, Sink.mem_texts_iff, List.mem_map,
    List.mem_map]
  simp only [mem_reports_of_rearranged h]

end programs

namespace Diving

theorem program_reordered :
    ∃ checked checked',
      Checked.ofProgram (program [entry, dive, again]) = .ok checked ∧
      Checked.ofProgram (program [dive, again, entry]) = .ok checked' ∧
      (∀ text, text ∈ checked'.diagnostics.map Diagnostic.render ↔
        text ∈ checked.diagnostics.map Diagnostic.render) ∧
      checked'.globals = checked.globals ∧
      ∀ name, checked'.functions.find? name = checked.functions.find? name := by
  have hrearranged : Rearranged (program [entry, dive, again]).declarations
      (program [dive, again, entry]).declarations := by
    refine .other rfl (.run ?_ (fun name => ?_) (.other rfl .nil))
    · exact (List.Perm.swap dive entry [again]).trans ((List.Perm.swap again entry []).cons dive)
    · by_cases hmain : name = "main"
      · subst hmain
        rfl
      · have hentry : (entry.name == name) = false := beq_false_of_ne (Ne.symm hmain)
        simp [hentry, List.filter_cons]
  have hok : (Checked.ofProgram (program [entry, dive, again])).toOption.isSome = true := by
    decide +kernel
  cases hp : Checked.ofProgram (program [entry, dive, again]) with
  | error e =>
    rw [hp] at hok
    cases hok
  | ok checked =>
    obtain ⟨checked', hp', hsame⟩ := ofProgram_of_rearranged hrearranged hp
    exact ⟨checked, checked', rfl, hp', hsame⟩

end Diving

end Sema
