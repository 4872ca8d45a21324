import Sema.Proofs.Checking.Places

/-!
# First definitions

Only the first definition of a function is shown (`Program.mem_entries_table`), and a program without
the others (`Program.withoutRepeats`) is checked with the same functions and global variables, and
with no report that the whole program does not have.

All that a check reports is placed in the program, but for a missing entry point
(`Program.placed_reports`). So the latter is reported just if no function has its name, and several
entry points never are (`ofProgram_firstDefinitions`).
-/

namespace Sema

/-! ## Without later definitions -/

/-- The declarations without the functions whose name is taken; `taken` holds the names of the
functions before them. -/
def withoutRepeats : List String → List Decl → List Decl
  | _, [] => []
  | taken, .func f :: ds =>
    if f.name ∈ taken then withoutRepeats taken ds
    else .func f :: withoutRepeats (f.name :: taken) ds
  | taken, d :: ds => d :: withoutRepeats taken ds

/-- The program without the functions whose name is taken. -/
def Program.withoutRepeats (p : Program) : Program :=
  ⟨Sema.withoutRepeats [] p.declarations⟩

theorem functionSites_withoutRepeats (taken : List String) (G : Scope) (ds : List Decl) :
    functionSites G (withoutRepeats taken ds) = firsts (·.2.name) taken (functionSites G ds) := by
  induction ds generalizing taken G with
  | nil => rfl
  | cons d ds ih =>
    cases d with
    | func f =>
      have hsites : functionSites G (.func f :: ds) = (G, f) :: functionSites G ds := rfl
      rw [withoutRepeats, hsites, firsts, ← ih, ← ih]
      by_cases h : f.name ∈ taken
      · rw [if_pos h, if_pos h]
      · rw [if_neg h, if_neg h]
        rfl
    | var v => exact ih taken _
    | unsupported => exact ih taken _

theorem sites_withoutRepeats (taken : List String) (G : Scope) (ds : List Decl) :
    (sites G (withoutRepeats taken ds)).Sublist (sites G ds) ∧
      (sites G (withoutRepeats taken ds)).flatMap Site.adds = (sites G ds).flatMap Site.adds := by
  induction ds generalizing taken G with
  | nil => exact ⟨.slnil, rfl⟩
  | cons d ds ih =>
    cases d with
    | func f =>
      rw [withoutRepeats]
      by_cases h : f.name ∈ taken
      · rw [if_pos h]
        obtain ⟨hsub, hadds⟩ := ih taken G
        exact ⟨hsub.cons _, hadds⟩
      · rw [if_neg h]
        obtain ⟨hsub, hadds⟩ := ih (f.name :: taken) G
        exact ⟨hsub.cons_cons _, hadds⟩
    | var v =>
      obtain ⟨hsub, hadds⟩ := ih taken ((Decl.var v).after G)
      refine ⟨hsub.cons_cons _, ?_⟩
      rw [withoutRepeats, sites, sites, List.flatMap_cons, List.flatMap_cons, hadds]
      simp
    | unsupported =>
      obtain ⟨hsub, hadds⟩ := ih taken (Decl.unsupported.after G)
      exact ⟨hsub.cons_cons _, hadds⟩

namespace Program

variable (p : Program)

theorem functionSites_withoutRepeats :
    p.withoutRepeats.functionSites = firsts (·.2.name) [] p.functionSites :=
  Sema.functionSites_withoutRepeats [] [] p.declarations

theorem functions_withoutRepeats :
    p.withoutRepeats.functions = firsts (·.name) [] p.functions := by
  rw [← map_snd_functionSites, functionSites_withoutRepeats, map_snd_firsts_functionSites]

theorem callee?_withoutRepeats : p.withoutRepeats.callee? = p.callee? := by
  funext name
  rw [callee?, callee?, functions_withoutRepeats, find?_firsts (by simp)]

theorem table_withoutRepeats : p.withoutRepeats.table = p.table := by
  rw [table, table, callee?_withoutRepeats, functionSites_withoutRepeats, firsts_firsts]

theorem globals_withoutRepeats : p.withoutRepeats.globals = p.globals :=
  (sites_withoutRepeats [] [] p.declarations).2

theorem mem_sites_of_withoutRepeats {site : Site} (h : site ∈ p.withoutRepeats.sites) :
    site ∈ p.sites :=
  (sites_withoutRepeats [] [] p.declarations).1.subset h

variable {p}

theorem walks_withoutRepeats (hp : p.Walks) : p.withoutRepeats.Walks := by
  intro site hsite
  rw [callee?_withoutRepeats]
  exact hp site (p.mem_sites_of_withoutRepeats hsite)

theorem exists_mem_withoutRepeats (name : String) :
    (∃ f ∈ p.withoutRepeats.functions, f.name = name) ↔ ∃ f ∈ p.functions, f.name = name := by
  rw [← List.mem_map, ← List.mem_map, functions_withoutRepeats, map_firsts_eq_eraseDups,
    List.mem_eraseDups]

theorem mem_reports_of_withoutRepeats {d : Diagnostic} (h : d ∈ p.withoutRepeats.reports) :
    d ∈ p.reports := by
  rw [mem_reports, functions_withoutRepeats, callee?_withoutRepeats, repeats_firsts] at h
  rw [mem_reports]
  rcases h with ⟨f, hf, hd⟩ | ⟨f, hf, -⟩ | ⟨site, hsite, hd⟩ | hmain
  · exact .inl ⟨f, sublist_firsts.subset hf, hd⟩
  · cases hf
  · exact .inr (.inr (.inl ⟨site, p.mem_sites_of_withoutRepeats hsite, hd⟩))
  · refine .inr (.inr (.inr ?_))
    simp only [mainReports, exists_mem_withoutRepeats] at hmain
    exact hmain

/-! ## Entries -/

/-- An entry is the one that the first definition of its name makes. -/
theorem mem_entries_table {key : String} {shown : FunctionSymbol}
    (h : (key, shown) ∈ p.table.entries) :
    ∃ f G, p.functions.find? (·.name == key) = some f ∧ f.name = key ∧
      shown = f.shown p.callee? G := by
  have hnodup : (p.table.entries.map Prod.fst).Nodup := by
    rw [table, List.map_map]
    exact nodup_map_firsts
  have hfind : p.table.find? key = some shown := (lookup_eq_some_iff_mem hnodup).mpr h
  rw [find?_table] at hfind
  obtain ⟨⟨G, f⟩, hsite, rfl⟩ := Option.map_eq_some_iff.mp hfind
  have hname := List.find?_some hsite
  refine ⟨f, G, ?_, eq_of_beq hname, rfl⟩
  rw [← map_snd_functionSites, List.find?_map]
  exact congrArg (Option.map Prod.snd) hsite

end Program

/-! ## Places of reports -/

/-- Whether a diagnostic reports a violation at a place. -/
def Diagnostic.Placed (d : Diagnostic) : Prop :=
  ∃ v loc, (Finding.violation v loc).Placed ∧ d = v.located loc

def Diagnostic.OfWalk (d : Diagnostic) : Prop :=
  ∃ v loc, (Finding.violation v loc).OfWalk ∧ d = v.located loc

section

variable {L : Location → Prop} {d : Diagnostic}

theorem Diagnostic.PlacedAt.placed (h : d.PlacedAt L) : d.Placed := by
  obtain ⟨v, loc, -, hv, rfl⟩ := h
  exact ⟨v, loc, hv, rfl⟩

theorem Diagnostic.OfWalkAt.ofWalk (h : d.OfWalkAt L) : d.OfWalk := by
  obtain ⟨v, loc, -, hv, rfl⟩ := h
  exact ⟨v, loc, hv, rfl⟩

theorem Diagnostic.Placed.code_ne (h : d.Placed) :
    d.code ≠ .missingMain ∧ d.code ≠ .duplicateMain := by
  obtain ⟨v, loc, hv, rfl⟩ := h
  cases v with
  | missingMain => exact hv.elim
  | severalMains n => exact hv.elim
  | _ => exact ⟨nofun, nofun⟩

theorem Diagnostic.Placed.render_ne (h : d.Placed) (v : Violation) :
    d.render ≠ v.global.render := by
  obtain ⟨v', loc, -, rfl⟩ := h
  exact v'.render_located_ne v loc

theorem Diagnostic.OfWalk.of_mem_typeReports {name : Option String} {loc : Location}
    (h : d ∈ typeReports name loc) : d.OfWalk :=
  (OfWalkAt.of_mem_typeReports (L := fun _ => True) trivial h).ofWalk

theorem Diagnostic.OfWalk.of_mem_headReports {f : FunctionDef} (h : d ∈ f.headReports) :
    d.OfWalk :=
  (OfWalkAt.of_mem_headReports .of_true h).ofWalk

theorem Site.ofWalk_findings {callee? : String → Option Signature} {site : Site}
    (hsite : site.Walks callee?)
    (h : d ∈ (site.walked callee?).findings.filterMap Finding.diagnostic?) : d.OfWalk :=
  (ofWalkAt_findings hsite (fun _ _ => .of_true) h).ofWalk

end

namespace Program

variable {p : Program}

/-- All that is reported has a place, but for a missing entry point. -/
theorem placed_reports (hp : p.Walks) {d : Diagnostic} (h : d ∈ p.reports) :
    d.Placed ∨ d ∈ p.mainReports :=
  (placedAt_reports hp (fun _ _ => .of_true) h).imp_left fun hplaced => hplaced.placed

theorem mem_mainReports {d : Diagnostic} :
    d ∈ p.mainReports ↔
      (∀ f ∈ p.functions, f.name ≠ mainName) ∧ d = Violation.missingMain.global := by
  rw [mainReports]
  by_cases h : ∃ f ∈ p.functions, f.name = mainName
  · rw [if_pos h]
    refine iff_of_false (by simp) fun hd => ?_
    obtain ⟨f, hf, hname⟩ := h
    exact hd.1 f hf hname
  · rw [if_neg h, List.mem_singleton, and_iff_right]
    exact fun f hf hname => h ⟨f, hf, hname⟩

theorem exists_missingMain_iff (hp : p.Walks) :
    (∃ d ∈ p.summary.diagnostics, d.code = .missingMain) ↔
      ∀ f ∈ p.functions, f.name ≠ mainName := by
  constructor
  · rintro ⟨d, hd, hcode⟩
    rcases placed_reports hp (Sink.mem_of_mem_items hd) with hplaced | hmain
    · exact absurd hcode hplaced.code_ne.1
    · exact (mem_mainReports.mp hmain).1
  · intro hnone
    have hmain := mem_mainReports.mpr ⟨hnone, rfl⟩
    refine ⟨Violation.missingMain.global, Sink.mem_items_of_render_ne ?_ ?_, rfl⟩
    · exact mem_reports.mpr (.inr (.inr (.inr hmain)))
    · intro d hd hrender
      rcases placed_reports hp hd with hplaced | hmain
      · exact absurd hrender (hplaced.render_ne _)
      · exact (mem_mainReports.mp hmain).2

theorem code_ne_duplicateMain (hp : p.Walks) {d : Diagnostic} (hd : d ∈ p.summary.diagnostics) :
    d.code ≠ .duplicateMain := by
  rcases placed_reports hp (Sink.mem_of_mem_items hd) with hplaced | hmain
  · exact hplaced.code_ne.2
  · rw [(mem_mainReports.mp hmain).2]
    exact nofun

end Program

/-- The first definition of a function is the one that counts: there is an entry for each name in the
order of the first definitions, with the head of the first definition; the other definitions only
add reports, and never an entry point. -/
theorem ofProgram_firstDefinitions {p : Program} {checked : Checked}
    (hp : Checked.ofProgram p = .ok checked) :
    checked.functions.keys = (p.functions.map (·.name)).eraseDups ∧
      (∀ key shown, (key, shown) ∈ checked.functions.entries →
        ∃ f, p.functions.find? (·.name == key) = some f ∧
          shown.name = key ∧ shown.type = Ty.named f.returnType ∧
          shown.parameters = f.params.map Param.symbol ∧ shown.line = f.loc.line ∧
          (shown.isMain = true ↔ key = mainName)) ∧
      (∃ reduced, Checked.ofProgram p.withoutRepeats = .ok reduced ∧
        reduced.functions = checked.functions ∧ reduced.globals = checked.globals ∧
        ∀ text ∈ reduced.diagnostics.map Diagnostic.render,
          text ∈ checked.diagnostics.map Diagnostic.render) ∧
      ((∃ d ∈ checked.diagnostics, d.code = .missingMain) ↔
        ∀ f ∈ p.functions, f.name ≠ mainName) ∧
      ∀ d ∈ checked.diagnostics, d.code ≠ .duplicateMain := by
  obtain ⟨hwalks, rfl⟩ := ofProgram_eq_ok_iff.mp hp
  refine ⟨p.keys_table, fun key shown h => ?_, ⟨p.withoutRepeats.summary,
    ofProgram_eq_ok_iff.mpr ⟨Program.walks_withoutRepeats hwalks, rfl⟩, p.table_withoutRepeats,
    p.globals_withoutRepeats, fun text h => ?_⟩, Program.exists_missingMain_iff hwalks,
    fun d => Program.code_ne_duplicateMain hwalks⟩
  · obtain ⟨f, G, hf, rfl, rfl⟩ := Program.mem_entries_table h
    have hhead := f.head_shown p.callee? G
    have hmain : (f.shown p.callee? G).isMain = (f.name == mainName) :=
      congrArg FunctionSymbol.isMain hhead
    refine ⟨f, hf, congrArg FunctionSymbol.name hhead, congrArg FunctionSymbol.type hhead,
      congrArg FunctionSymbol.parameters hhead, congrArg FunctionSymbol.line hhead, ?_⟩
    rw [hmain, beq_iff_eq]
  · rw [Program.summary, Sink.mem_texts_iff] at h ⊢
    obtain ⟨d, hd, rfl⟩ := List.mem_map.mp h
    exact List.mem_map_of_mem (Program.mem_reports_of_withoutRepeats hd)

namespace Diving

theorem program_firstDefinitions :
    ∃ checked reduced, Checked.ofProgram (program [entry, dive, again, entry]) = .ok checked ∧
      Checked.ofProgram (program [entry, dive]) = .ok reduced ∧
      checked.functions.keys = ["main", "dive"] ∧
      reduced.functions = checked.functions ∧ reduced.globals = checked.globals ∧
      (∀ text ∈ reduced.diagnostics.map Diagnostic.render,
        text ∈ checked.diagnostics.map Diagnostic.render) ∧
      ∀ d ∈ checked.diagnostics, d.code ≠ .missingMain ∧ d.code ≠ .duplicateMain := by
  have hok : (Checked.ofProgram (program [entry, dive, again, entry])).toOption.isSome = true := by
    decide +kernel
  cases hp : Checked.ofProgram (program [entry, dive, again, entry]) with
  | error e =>
    rw [hp] at hok
    cases hok
  | ok checked =>
    obtain ⟨hkeys, -, ⟨reduced, hreduced, hfunctions, hglobals, htexts⟩, hmain, hseveral⟩ :=
      ofProgram_firstDefinitions hp
    refine ⟨checked, reduced, rfl, hreduced, hkeys, hfunctions, hglobals, htexts,
      fun d hd => ⟨fun hcode => ?_, hseveral d hd⟩⟩
    exact hmain.mp ⟨d, hd, hcode⟩ entry (by simp [program, Program.functions, Decl.function?]) rfl

end Diving

end Sema
