import Sema.Proofs.Checking.Functions

/-!
# Checking programs

The check of a program files no diagnostic just if the program is well typed
(`diagnostics_eq_nil_iff_wellTyped`); a program of supported parts is always checked to the end.
-/

namespace Sema

open Typing

/-! ## Steps that keep the signatures -/

namespace CheckM

variable {α β : Type}

def KeepsSignatures (m : CheckM α) : Prop :=
  ∀ c, (m.run c).2.functions.signatures = c.functions.signatures

theorem KeepsSignatures.bind {m : CheckM α} {f : α → CheckM β} (hm : m.KeepsSignatures)
    (hf : ∀ a, (f a).KeepsSignatures) : (m >>= f).KeepsSignatures := by
  intro c
  have h := hm c
  rw [run_bind]
  cases hr : m.run c with
  | mk r c₁ =>
    rw [hr] at h
    cases r with
    | error e => exact h
    | ok a => exact (hf a c₁).trans h

theorem KeepsSignatures.walk (w : Walk α) : (walk w).KeepsSignatures :=
  fun c => (Checker.absorbed_frame _ (w c.env c.scopes).findings).2.2

theorem KeepsSignatures.setCurrent (current : Current) : (setCurrent current).KeepsSignatures :=
  fun _ => rfl

def Completes (m : CheckM α) : Prop :=
  ∀ c, ∃ a c', m.run c = (.ok a, c')

theorem Completes.bind {m : CheckM α} {f : α → CheckM β} (hm : m.Completes)
    (hf : ∀ a, (f a).Completes) : (m >>= f).Completes := by
  intro c
  obtain ⟨a, c₁, h⟩ := hm c
  obtain ⟨b, c', h'⟩ := hf a c₁
  exact ⟨b, c', by rw [run_bind, h]; exact h'⟩

theorem Completes.walk {w : Walk α} (hw : w.Completes) : (walk w).Completes := by
  intro c
  obtain ⟨fs, a, s', h⟩ := hw c.env c.scopes
  exact ⟨a, _, run_walk h⟩

end CheckM

namespace Checking

open CheckM (walk setCurrent)

variable {c c' : Checker} {fs : List FunctionDef}

/-- The check of a function from the walk over its body on. -/
def closing (f : FunctionDef) : CheckM Unit := do
  walk (checkBody f)
  checkReturns f
  walk Walk.pop
  setCurrent .nowhere

theorem keepsSignatures_checkFunction (f : FunctionDef) (registered : Bool) :
    (checkFunction f registered).KeepsSignatures := by
  have hreturns : (checkReturns f).KeepsSignatures := by
    refine CheckM.KeepsSignatures.bind (m := get) (fun _ => rfl) fun c => ?_
    split
    · exact fun _ => rfl
    · exact .walk _
  have hrest : (closing f).KeepsSignatures :=
    (CheckM.KeepsSignatures.walk _).bind fun _ => hreturns.bind fun _ =>
      (CheckM.KeepsSignatures.walk _).bind fun _ => .setCurrent _
  cases registered with
  | true => exact (CheckM.KeepsSignatures.setCurrent _).bind fun _ => hrest
  | false =>
    exact (CheckM.KeepsSignatures.walk _).bind fun _ =>
      (CheckM.KeepsSignatures.setCurrent _).bind fun _ => hrest

theorem keepsSignatures_checkDecls (taken : List String) (ds : List Decl) :
    (checkDecls taken ds).KeepsSignatures := by
  induction ds generalizing taken with
  | nil => exact fun _ => rfl
  | cons d ds ih =>
    cases d with
    | func f => exact (keepsSignatures_checkFunction f _).bind fun _ => ih _
    | var d => exact (CheckM.KeepsSignatures.walk _).bind fun _ => ih _
    | unsupported => exact fun _ => rfl

/-! ## Completion -/

theorem completes_checkBody {f : FunctionDef} (hf : f.body.Supported) :
    (checkBody f).Completes := by
  have hbody : Stmt.AllSupported f.body.statements := by
    cases hb : f.body
    rw [hb] at hf
    exact hf
  exact Walk.Completes.bind (fun _ s => ⟨[], (), s.push, rfl⟩) fun _ =>
    (completes_bindParams _ _).bind fun _ =>
      (closed_checkStmts Walk.closedInFrames_completes _ (.inl hbody)).2

theorem run_checkReturns (f : FunctionDef) (c : Checker) :
    ∃ c', (checkReturns f).run c = (.ok (), c') ∧ c'.scopes = c.scopes := by
  cases hc : c.function? with
  | none =>
    refine ⟨c, ?_, rfl⟩
    rw [checkReturns, CheckM.run_get_bind, hc]
    rfl
  | some symbol =>
    let w := Walk.reportIf (symbol.type != .void && !symbol.hasReturn)
      (.missingReturn f.name symbol.type) f.loc
    obtain ⟨fs, _, s', h⟩ : ∃ fs u s', w.Gives c.env c.scopes fs u s' :=
      Walk.completes_reportIf _ _ _ c.env c.scopes
    refine ⟨fs.foldl Checker.absorb { c with scopes := s' }, ?_, ?_⟩
    · rw [checkReturns, CheckM.run_get_bind, hc]
      exact CheckM.run_walk h
    · rw [(Checker.absorbed_frame _ fs).1]
      exact (Walk.Reporting.reportIf _ _ _ _ _ _ _ _ h).1

/-- Once the body of a function has been walked, the rest always succeeds and brings back the
scopes: the frame that is closed is the one that was opened for the function. -/
theorem run_closing {f : FunctionDef} {findings : List Finding} {s' : ScopeStack}
    (hbody : (checkBody f).Gives c.env c.scopes findings () s') :
    ∃ c', (closing f).run c = (.ok (), c') ∧ c'.scopes = c.scopes ∧ c'.current = .nowhere := by
  obtain ⟨c₂, hreturns, hscopes⟩ :=
    run_checkReturns f (findings.foldl Checker.absorb { c with scopes := s' })
  rw [(Checker.absorbed_frame _ findings).1] at hscopes
  have hpop : Walk.pop.Gives c₂.env c₂.scopes [] () c.scopes :=
    Walk.gives_pop.mpr ⟨hscopes ▸ pop_of_checkBody_gives hbody, rfl⟩
  refine ⟨{ c₂ with scopes := c.scopes, current := .nowhere }, ?_, rfl, rfl⟩
  rw [closing, CheckM.run_bind, CheckM.run_walk hbody]
  simp only [CheckM.run_bind, hreturns, CheckM.run_walk hpop]
  rfl

theorem completes_checkFunction {f : FunctionDef} (hf : f.body.Supported) (registered : Bool) :
    (checkFunction f registered).Completes := by
  have hrest : (closing f).Completes := by
    intro c
    obtain ⟨fs, _, s', hbody⟩ := completes_checkBody hf c.env c.scopes
    obtain ⟨c', h, -⟩ := run_closing hbody
    exact ⟨(), c', h⟩
  cases registered with
  | true => exact CheckM.Completes.bind (m := setCurrent _) (fun _ => ⟨_, _, rfl⟩) fun _ => hrest
  | false =>
    exact (CheckM.Completes.walk (Walk.closed_completes.resolveType _ _)).bind fun _ =>
      CheckM.Completes.bind (m := setCurrent _) (fun _ => ⟨_, _, rfl⟩) fun _ => hrest

theorem completes_checkDecls {ds : List Decl} (hds : ∀ d ∈ ds, d.Supported) (taken : List String) :
    (checkDecls taken ds).Completes := by
  induction ds generalizing taken with
  | nil => exact fun c => ⟨(), c, rfl⟩
  | cons d ds ih =>
    have hd := hds d List.mem_cons_self
    have ih := ih fun d' hd' => hds d' (List.mem_cons_of_mem d hd')
    cases d with
    | func f => exact (completes_checkFunction hd _).bind fun _ => ih _
    | var d =>
      have hvar : (checkVarDecl .global d).Completes :=
        closed_checkVarDecl Walk.closed_completes Walk.completes_declare _
          (fun _ => Walk.completes_find _) d (.inl hd)
      exact (CheckM.Completes.walk hvar).bind fun _ => ih _
    | unsupported => exact hd.elim

theorem completes_paramSymbols (func : String) (seen : List String) (ps : List Param) :
    (paramSymbols func seen ps).Completes := by
  induction ps generalizing seen with
  | nil => exact Walk.closed_completes.pure _
  | cons p ps ih =>
    exact (Walk.closed_completes.reportIf _ _ _).bind fun _ =>
      (Walk.closed_completes.resolveType _ _).bind fun _ => (ih _).bind fun _ =>
        Walk.closed_completes.pure _

theorem completes_registerFunctions (fs : List FunctionDef) :
    (registerFunctions fs).Completes := by
  induction fs with
  | nil => exact fun c => ⟨(), c, rfl⟩
  | cons f fs ih =>
    refine CheckM.Completes.bind ?_ fun _ => ih
    refine (CheckM.Completes.walk (Walk.closed_completes.resolveType _ _)).bind fun type =>
      (CheckM.Completes.walk (completes_paramSymbols _ _ _)).bind fun parameters =>
        CheckM.Completes.bind (m := get) (fun c => ⟨c, c, rfl⟩) fun c => ?_
    split
    · exact .walk (Walk.completes_find _)
    · exact fun c => ⟨(), _, rfl⟩

/-! ## Entry points -/

theorem checkMain_passes_iff {u : Unit} :
    checkMain.Passes c u c' ↔
      (c.functions.functions.filter (·.isMain)).length = 1 ∧ c.sink = .empty ∧ c' = c := by
  have hfile : ∀ d, (c.file d).sink ≠ .empty := fun d h =>
    Sink.seen_add_ne_nil c.sink d (by rw [show (c.sink.add d).2 = .empty from h]; rfl)
  rw [checkMain, CheckM.passes_modify]
  split
  · next h => simp [h, hfile]
  · next h => simp [h, and_comm]
  · next h0 h1 => exact iff_of_false (fun h => hfile _ h.2) fun h => h1 h.1

theorem length_filter_isMain_eq_one_iff {t : FunctionTable} (hfs : Registered fs)
    (ht : t.signatures = FunctionTable.signatures ⟨fs.map FunctionDef.entry⟩) :
    (t.functions.filter (·.isMain)).length = 1 ↔ ∃ f ∈ fs, f.name = mainName := by
  have hcount : (t.functions.filter (·.isMain)).length = (fs.map (·.name)).count mainName :=
    calc (t.functions.filter (·.isMain)).length
      _ = (t.signatures.filter (·.2.isMain)).length := by
        rw [FunctionTable.functions, FunctionTable.signatures, List.filter_map, List.filter_map,
          List.length_map, List.length_map]
        rfl
      _ = (fs.map (·.name)).count mainName := by
        rw [ht, FunctionTable.signatures, List.map_map, List.count_eq_length_filter, List.filter_map,
          List.filter_map, List.length_map, List.length_map]
        rfl
  rw [hcount, hfs.apart.count]
  simp

end Checking

/-! ## Well-typed programs -/

namespace Typing

variable {fs : List FunctionDef}

theorem ParamsOk.types {F F' : Frame} {ps : List Param} (h : ParamsOk F ps F') :
    ∀ p ∈ ps, ∃ τ, Names p.type τ := by
  induction h with
  | nil => simp
  | @cons _ _ p ps τ named _ _ ih =>
    intro q hq
    rcases List.mem_cons.mp hq with rfl | hq
    · exact ⟨τ, named⟩
    · exact ih q hq

theorem ParamsOk.distinct {F F' : Frame} {ps : List Param} (h : ParamsOk F ps F') :
    (ps.map (·.name)).Nodup ∧ ∀ p ∈ ps, F.Lacks p.name := by
  induction h with
  | nil => simp
  | @cons F _ p ps τ _ fresh _ ih =>
    obtain ⟨hnodup, hlacks⟩ := ih
    refine ⟨?_, fun q hq => ?_⟩
    · rw [List.map_cons, List.nodup_cons]
      refine ⟨fun hmem => ?_, hnodup⟩
      obtain ⟨q, hq, hname⟩ := List.mem_map.mp hmem
      exact hlacks q hq _ List.mem_cons_self hname.symm
    · rcases List.mem_cons.mp hq with rfl | hq
      · exact fresh
      · exact fun v hv => hlacks q hq v (List.mem_cons_of_mem _ hv)

theorem FunctionOk.declared {G : Frame} {f : FunctionDef} (h : FunctionOk fs G f) :
    f.Declared := by
  cases h with
  | mk named params _ _ => exact ⟨⟨_, named⟩, params.types, params.distinct.1⟩

theorem DeclsOk.declared {G : Frame} {ds : List Decl} (h : DeclsOk fs G ds) :
    ∀ f ∈ ds.filterMap Decl.function?, f.Declared := by
  induction h with
  | nil => simp
  | @func _ f ds function _ ih =>
    intro g hg
    rcases List.mem_cons.mp hg with rfl | hg
    · exact function.declared
    · exact ih g hg
  | var _ _ ih => exact ih

end Typing

namespace Checking

theorem ready_registered {fs : List FunctionDef} (hfs : Registered fs) :
    ({ Checker.empty with functions := ⟨fs.map FunctionDef.entry⟩ } : Checker).Ready fs [] fs := by
  refine ⟨rfl, rfl, rfl, ?_, rfl, fun f hf => ⟨f.entry.2, ?_, rfl, rfl⟩, hfs.apart⟩
  · intro F hF
    cases List.mem_singleton.mp hF
    exact List.nodup_nil
  · have hkeys : ((fs.map FunctionDef.entry).map Prod.fst).Nodup := by
      rw [List.map_map]
      exact hfs.apart
    exact (lookup_eq_some_iff_mem hkeys).mpr (List.mem_map.mpr ⟨f, hf, rfl⟩)

theorem grows_checkMain : checkMain.Grows := by
  refine .modify fun c => ?_
  split
  · exact ⟨[_], rfl⟩
  · exact ⟨[], rfl⟩
  · exact ⟨[_], rfl⟩

theorem grows_checkProgram (p : Program) : (checkProgram p).Grows :=
  CheckM.Grows.get.bind fun _ => (grows_registerFunctions _).bind fun _ =>
    (grows_checkDecls _ _).bind fun _ => grows_checkMain

theorem wellTyped_iff_of_registered {p : Program} (hp : Registered p.functions) :
    p.WellTyped ↔
      ∃ c', (do checkDecls [] p.declarations; checkMain : CheckM Unit).Passes
        { Checker.empty with functions := ⟨p.functions.map FunctionDef.entry⟩ } () c' := by
  have hready := ready_registered hp
  have hfree : ∀ f ∈ p.functions, f ∈ p.functions ∧ f.name ∉ [] := fun f hf => ⟨hf, by simp⟩
  have hdecls := declsOk_iff hp hready hfree
  simp only [CheckM.passes_bind fun _ => grows_checkMain, checkMain_passes_iff]
  have hmain : ∀ {c}, (checkDecls [] p.declarations).Passes
      { Checker.empty with functions := ⟨p.functions.map FunctionDef.entry⟩ } () c →
      ((c.functions.functions.filter (·.isMain)).length = 1 ↔
        ∃ f ∈ p.functions, f.name = mainName) := by
    intro c h
    have hkeeps := keepsSignatures_checkDecls [] p.declarations
      { Checker.empty with functions := ⟨p.functions.map FunctionDef.entry⟩ }
    rw [h.1] at hkeeps
    exact length_filter_isMain_eq_one_iff hp hkeeps
  constructor
  · rintro ⟨main, -, decls⟩
    obtain ⟨c, h⟩ := hdecls.mp decls
    exact ⟨c, (), c, h, (hmain h).mpr main, h.2, rfl⟩
  · rintro ⟨c', _, c, h, main, -, -⟩
    exact ⟨(hmain h).mp main, hp.apart, hdecls.mpr ⟨c, h⟩⟩

theorem wellTyped_iff_checkProgram_passes {p : Program} :
    p.WellTyped ↔ ∃ c', (checkProgram p).Passes Checker.empty () c' := by
  have hrest : (do checkDecls [] p.declarations; checkMain : CheckM Unit).Grows :=
    (grows_checkDecls _ _).bind fun _ => grows_checkMain
  have hprogram : ∀ c', (checkProgram p).Passes Checker.empty () c' ↔
      ∃ u c₁, (registerFunctions p.functions).Passes Checker.empty u c₁ ∧
        (do checkDecls [] p.declarations; checkMain : CheckM Unit).Passes c₁ () c' :=
    fun c' => CheckM.passes_bind fun _ => hrest
  simp only [hprogram, registerFunctions_passes_iff]
  constructor
  · intro h
    have hp : Registered p.functions := ⟨h.declarations.declared, h.distinct⟩
    obtain ⟨c', hc'⟩ := (wellTyped_iff_of_registered hp).mp h
    exact ⟨c', (), _, ⟨hp.declared, hp.apart, by simp [Checker.empty, FunctionTable.empty,
      FunctionTable.keys], rfl, rfl⟩, hc'⟩
  · rintro ⟨c', _, _, ⟨hdeclared, hapart, -, -, rfl⟩, hc'⟩
    exact (wellTyped_iff_of_registered ⟨hdeclared, hapart⟩).mpr ⟨c', hc'⟩

theorem completes_checkProgram {p : Program} (hp : p.Supported) : (checkProgram p).Completes :=
  CheckM.Completes.bind (m := get) (fun c => ⟨c, c, rfl⟩) fun _ =>
    (completes_registerFunctions _).bind fun _ => (completes_checkDecls hp _).bind fun _ =>
      fun _ => ⟨(), _, rfl⟩

end Checking

/-- A program of supported parts is checked to the end, without a diagnostic just if the program is
well typed. -/
theorem diagnostics_eq_nil_iff_wellTyped (p : Program) (h : p.Supported) :
    ∃ checked, Checked.ofProgram p = .ok checked ∧ (checked.diagnostics = [] ↔ p.WellTyped) := by
  obtain ⟨_, c, hc⟩ := Checking.completes_checkProgram h Checker.empty
  obtain ⟨ds, hds⟩ := Checking.grows_checkProgram p Checker.empty
  rw [hc] at hds
  refine ⟨⟨c.functions, c.globals, c.sink.items⟩, by rw [Checked.ofProgram, hc], ?_⟩
  have hempty : c.sink.items = [] ↔ c.sink = .empty := by
    rw [show c.sink = Sink.empty.extend ds from hds, Sink.items_extend_empty_eq_nil_iff,
      Sink.extend_eq_empty_iff, and_iff_right rfl]
  rw [Checking.wellTyped_iff_checkProgram_passes, hempty]
  constructor
  · exact fun hsink => ⟨c, hc, hsink⟩
  · rintro ⟨c', hc', hsink⟩
    rw [hc] at hc'
    cases hc'
    exact hsink

/-- A function that is called before it is defined, and a loop that hides a global variable:
```
int total = 0;
void main() { for (int i = 0; i < 3; i = i + 1) { int total = add(i); } }
int add(int n) { total = total + n; return n; }
```
-/
def tally : Program where
  declarations :=
    let loc : Location := ⟨1, 1, none⟩
    [.var { loc, name := "total", type := some "int", value := some (.int loc 0) },
      .func
        { loc, name := "main", params := [], returnType := some "void",
          body := .mk loc [
            .forLoop loc
              (some (.varDecl { loc, name := "i", type := some "int", value := some (.int loc 0) }))
              (some (.binary loc "<" (.name loc "i") (.int loc 3)))
              (some (.assign loc "i" (some (.binary loc "+" (.name loc "i") (.int loc 1)))))
              (.mk loc [.varDecl { loc, name := "total", type := some "int",
                                   value := some (.call loc "add" [.name loc "i"]) }])] },
      .func
        { loc, name := "add", params := [⟨loc, "n", some "int"⟩], returnType := some "int",
          body := .mk loc [
            .assign loc "total" (some (.binary loc "+" (.name loc "total") (.name loc "n"))),
            .result loc (some (.name loc "n"))] }]

theorem tally_wellTyped : tally.Supported ∧ tally.WellTyped := by
  have hsupported : tally.Supported := by
    have hlt : ∃ op : BinaryOp, "<" = op.text := ⟨.lt, rfl⟩
    have hadd : ∃ op : BinaryOp, "+" = op.text := ⟨.add, rfl⟩
    simp [Program.Supported, tally, Decl.Supported, Block.Supported, Stmt.AllSupported,
      Stmt.Supported, Stmt.OptionSupported, Expr.OptionSupported, Expr.Supported, Expr.AllSupported,
      hlt, hadd]
  obtain ⟨checked, hok, hiff⟩ := diagnostics_eq_nil_iff_wellTyped tally hsupported
  have hnone : (Checked.ofProgram tally).toOption.map (·.diagnostics) = some [] := by
    decide +kernel
  rw [hok] at hnone
  exact ⟨hsupported, hiff.mp (Option.some.inj hnone)⟩

end Sema
