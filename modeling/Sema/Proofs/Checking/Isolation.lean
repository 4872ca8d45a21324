import Sema.Proofs.Checking.Programs
import Sema.Proofs.Checking.Summary

/-!
# Bodies of functions

The body of a function shows in the entry of that function only, and there not in its head
(`ofProgram_of_body`).
-/

namespace Sema

/-! ## Programs of supported parts -/

theorem Program.Supported.walks {p : Program} (h : p.Supported) : p.Walks := by
  obtain ⟨_, c, hc⟩ := Checking.completes_checkProgram h Checker.empty
  exact (Checking.checkProgram_gives_iff.mp hc).1

/-! ## A function between other declarations -/

/-- The program in which a function stands between other declarations. -/
def Program.around (before after : List Decl) (f : FunctionDef) : Program :=
  ⟨before ++ .func f :: after⟩

section around

variable {before after : List Decl} {f : FunctionDef} {body : Block}

theorem functions_around :
    (Program.around before after f).functions =
      before.filterMap Decl.function? ++ f :: after.filterMap Decl.function? :=
  List.filterMap_append

/-- The global frame in which the function stands depends on what comes before it, and the function
does not change it. -/
theorem sites_around :
    (Program.around before after f).sites =
      sites [] before ++ ⟨before.foldl Decl.after [], .func f⟩ ::
        sites (before.foldl Decl.after []) after :=
  sites_append [] before (.func f :: after)

theorem functionSites_around :
    (Program.around before after f).functionSites =
      functionSites [] before ++ (before.foldl Decl.after [], f) ::
        functionSites (before.foldl Decl.after []) after :=
  functionSites_append [] before (.func f :: after)

theorem callee?_around :
    (Program.around before after { f with body }).callee? =
      (Program.around before after f).callee? := by
  funext name
  simp only [Program.callee?, functions_around, List.find?_append, List.find?_cons]
  cases (before.filterMap Decl.function?).find? (·.name == name) with
  | some g => rfl
  | none => cases f.name == name <;> rfl

theorem globals_around :
    (Program.around before after { f with body }).globals =
      (Program.around before after f).globals := by
  simp only [Program.globals, sites_around, List.flatMap_append, List.flatMap_cons]
  rfl

theorem keys_table_around :
    (Program.around before after { f with body }).table.keys =
      (Program.around before after f).table.keys := by
  simp only [Program.keys_table, functions_around, List.map_append, List.map_cons]

theorem find?_table_around {name : String} (h : name ≠ f.name) :
    (Program.around before after { f with body }).table.find? name =
      (Program.around before after f).table.find? name := by
  simp only [Program.find?_table, callee?_around, functionSites_around, List.find?_append,
    List.find?_cons, beq_false_of_ne (Ne.symm h)]

theorem mem_names_functionSites {ds : List Decl} {name : String} (G : Scope) :
    name ∈ (functionSites G ds).map (·.2.name) ↔
      ∃ g ∈ ds.filterMap Decl.function?, g.name = name := by
  rw [← map_snd_functionSites G ds, ← List.mem_map, List.map_map]
  rfl

theorem table_around_of_taken (h : ∃ g ∈ before.filterMap Decl.function?, g.name = f.name) :
    (Program.around before after { f with body }).table =
      (Program.around before after f).table := by
  have hmem := (mem_names_functionSites []).mpr h
  have hskip : ∀ g : FunctionDef, g.name = f.name →
      firsts (·.2.name) [] (Program.around before after g).functionSites =
        firsts (·.2.name) [] (functionSites [] before) ++
          firsts (·.2.name) ((functionSites [] before).map (·.2.name))
            (functionSites (before.foldl Decl.after []) after) := by
    intro g hg
    rw [← hg] at hmem
    rw [functionSites_around, firsts_append, List.append_nil]
    have hrest : ∀ sites, firsts (fun site : Scope × FunctionDef => site.2.name)
        ((functionSites [] before).map (·.2.name)) ((before.foldl Decl.after [], g) :: sites) =
          firsts (·.2.name) ((functionSites [] before).map (·.2.name)) sites := fun _ =>
      firsts_cons_of_mem hmem
    rw [hrest]
  simp only [Program.table, callee?_around, hskip f rfl, hskip { f with body } rfl]

theorem find?_table_around_self (h : ¬∃ g ∈ before.filterMap Decl.function?, g.name = f.name) :
    (Program.around before after f).table.find? f.name =
      some (f.shown (Program.around before after f).callee? (before.foldl Decl.after [])) := by
  have hnone : (functionSites [] before).find? (·.2.name == f.name) = none := by
    rw [List.find?_eq_none]
    intro site hsite hname
    exact h ((mem_names_functionSites []).mp (List.mem_map.mpr ⟨site, hsite, eq_of_beq hname⟩))
  simp only [Program.find?_table, functionSites_around, List.find?_append, hnone, Option.none_or,
    List.find?_cons, beq_self_eq_true, Option.map_some]

end around

/-- The body of a function shows in no other function and no global variable: not at all if the name
of the function is taken, else in the variables, the control structures and the two flags that its
entry lists. -/
theorem ofProgram_of_body (before after : List Decl) (f : FunctionDef) (body : Block)
    (h : (Program.around before after f).Supported)
    (h' : (Program.around before after { f with body }).Supported) :
    ∃ checked checked',
      Checked.ofProgram (.around before after f) = .ok checked ∧
      Checked.ofProgram (.around before after { f with body }) = .ok checked' ∧
      checked'.globals = checked.globals ∧
      checked'.functions.keys = checked.functions.keys ∧
      (∀ name ≠ f.name, checked'.functions.find? name = checked.functions.find? name) ∧
      ((∃ g ∈ before.filterMap Decl.function?, g.name = f.name) →
        checked'.functions = checked.functions) ∧
      ((¬∃ g ∈ before.filterMap Decl.function?, g.name = f.name) →
        ∃ shown shown', checked.functions.find? f.name = some shown ∧
          checked'.functions.find? f.name = some shown' ∧
          shown' = { shown with
            locals := shown'.locals, controls := shown'.controls,
            isRecursive := shown'.isRecursive, hasReturn := shown'.hasReturn }) := by
  refine ⟨_, _, ofProgram_eq_ok_iff.mpr ⟨h.walks, rfl⟩, ofProgram_eq_ok_iff.mpr ⟨h'.walks, rfl⟩,
    globals_around, keys_table_around, fun name hname => find?_table_around hname,
    table_around_of_taken, fun hfirst => ?_⟩
  refine ⟨_, _, find?_table_around_self hfirst,
    find?_table_around_self (f := { f with body }) hfirst, FunctionSymbol.eq_of_head_eq ?_⟩
  rw [FunctionDef.head_shown, FunctionDef.head_shown]
  rfl

namespace Diving

/-- The program
```
int depth = 0;
void main() { dive(depth); }
int dive(int n) { depth = dive(n); }
void dive() { main(); }
```
with another body in the place of that of the first `dive`. -/
def around (body : Block) : Program :=
  .around [.var (depth 1), .func entry] [.func again] { dive with body }

theorem around_body :
    ∃ checked checked',
      Checked.ofProgram (around dive.body) = .ok checked ∧
      Checked.ofProgram (around again.body) = .ok checked' ∧
      checked'.globals = checked.globals ∧ checked'.functions.keys = checked.functions.keys ∧
      (∀ name ≠ "dive", checked'.functions.find? name = checked.functions.find? name) ∧
      ∃ shown shown', checked.functions.find? "dive" = some shown ∧
        checked'.functions.find? "dive" = some shown' ∧
        shown' = { shown with
          locals := shown'.locals, controls := shown'.controls,
          isRecursive := shown'.isRecursive, hasReturn := shown'.hasReturn } := by
  have hsupported : ∀ body : Block, body.Supported → (around body).Supported := by
    intro body hbody
    simp [Program.Supported, around, Program.around, Decl.Supported, depth, entry, again,
      Block.Supported, Stmt.AllSupported, Stmt.Supported, Expr.OptionSupported, Expr.Supported,
      Expr.AllSupported, hbody]
  obtain ⟨checked, checked', hp, hp', hglobals, hkeys, hothers, -, hself⟩ :=
    ofProgram_of_body [.var (depth 1), .func entry] [.func again] dive again.body
      (hsupported dive.body (by simp [dive, Block.Supported, Stmt.AllSupported, Stmt.Supported,
        Expr.OptionSupported, Expr.Supported, Expr.AllSupported]))
      (hsupported again.body (by simp [again, Block.Supported, Stmt.AllSupported, Stmt.Supported,
        Expr.Supported, Expr.AllSupported]))
  refine ⟨checked, checked', hp, hp', hglobals, hkeys, hothers, hself ?_⟩
  rintro ⟨g, hg, hname⟩
  cases List.mem_singleton.mp hg
  revert hname
  decide

end Diving

end Sema
