import Sema.Proofs.Checking.Expressions
import Sema.Proofs.Checking.Steps

/-!
# The registration of functions

The functions of a program are registered without diagnostics just if their types are defined and
neither two functions nor two parameters of one share a name (`registerFunctions_passes_iff`). The
table then holds the functions with the signatures that the typing rules give them
(`serves_registered`).
-/

namespace Sema

open Typing

/-- The type that a declaration gets; that of an undefined name is unknown. -/
def Ty.named (name : Option String) : Ty :=
  match Ty.resolve name with
  | .ok τ => τ
  | .error _ => .unknown

theorem Ty.named_of_resolve {name : Option String} {τ : Ty} (h : Ty.resolve name = .ok τ) :
    Ty.named name = τ := by
  rw [named, h]

/-- The symbol of a parameter with the type that it gets. -/
def Param.symbol (p : Param) : Symbol :=
  Checking.paramSymbol p (Ty.named p.type)

/-- What the registration of a function puts into the table. -/
def FunctionDef.entry (f : FunctionDef) : String × FunctionSymbol :=
  (f.name, f.symbol (Ty.named f.returnType) (f.params.map Param.symbol))

/-- The head of a function names defined types, and distinct parameters. -/
structure FunctionDef.Declared (f : FunctionDef) : Prop where
  result : ∃ τ, Names f.returnType τ
  types : ∀ p ∈ f.params, ∃ τ, Names p.type τ
  distinct : (f.params.map (·.name)).Nodup

theorem isSome_lookup_iff_mem_keys {α : Type} {l : List (String × α)} {key : String} :
    (l.lookup key).isSome = true ↔ key ∈ l.map Prod.fst := by
  rw [List.lookup_isSome_iff, List.mem_map]
  constructor
  · rintro ⟨e, he, hkey⟩
    exact ⟨e, he, (eq_of_beq hkey).symm⟩
  · rintro ⟨e, he, rfl⟩
    exact ⟨e, he, beq_self_eq_true _⟩

namespace FunctionTable

theorem contains_iff_mem_keys {t : FunctionTable} {key : String} :
    t.contains key = true ↔ key ∈ t.keys :=
  isSome_lookup_iff_mem_keys

theorem insert_of_not_mem {t : FunctionTable} {key : String} (h : key ∉ t.keys)
    (f : FunctionSymbol) : t.insert key f = ⟨t.entries ++ [(key, f)]⟩ := by
  rw [insert, if_neg (by rwa [contains_iff_mem_keys])]

end FunctionTable

/-! ## Walks that only report -/

namespace Walk

variable {α β : Type} {env : Env} {s s' : ScopeStack}

/-- Whether a walk changes nothing and finds violations only. -/
def Reporting (w : Walk α) : Prop :=
  ∀ env s fs a s', w.Gives env s fs a s' → s' = s ∧ ∀ finding ∈ fs, finding.diagnostic? ≠ none

theorem Reporting.bind {w : Walk α} {f : α → Walk β} (hw : w.Reporting)
    (hf : ∀ a, (f a).Reporting) : (w >>= f).Reporting := by
  intro env s fs b s' h
  obtain ⟨fs₁, a, s₁, fs₂, h₁, h₂, rfl⟩ := gives_bind.mp h
  obtain ⟨rfl, hfs₁⟩ := hw env s fs₁ a s₁ h₁
  obtain ⟨rfl, hfs₂⟩ := hf a env _ fs₂ b s' h₂
  refine ⟨rfl, fun finding hmem => ?_⟩
  rcases List.mem_append.mp hmem with hmem | hmem
  · exact hfs₁ finding hmem
  · exact hfs₂ finding hmem

theorem Reporting.read {g : Env → ScopeStack → α} :
    Reporting (fun env s => ⟨s, [], .ok (g env s)⟩) := by
  intro env s fs a s' h
  obtain ⟨-, rfl, rfl⟩ := gives_read.mp h
  exact ⟨rfl, by simp⟩

theorem Reporting.pure (a : α) : (pure a : Walk α).Reporting :=
  .read

theorem Reporting.report (v : Violation) (loc : Location) : (report v loc).Reporting := by
  intro env s fs u s' h
  obtain ⟨rfl, rfl⟩ := gives_find.mp h
  exact ⟨rfl, by simp [Finding.diagnostic?]⟩

theorem Reporting.reportIf (broken : Bool) (v : Violation) (loc : Location) :
    (reportIf broken v loc).Reporting := by
  cases broken with
  | false => exact .pure ()
  | true => exact .report v loc

theorem Reporting.resolveType (name : Option String) (loc : Location) :
    (resolveType name loc).Reporting := by
  unfold Walk.resolveType
  cases Ty.resolve name with
  | ok τ => exact .pure τ
  | error e => exact (Reporting.report _ _).bind fun _ => .pure _

end Walk

theorem CheckM.passes_walk_reporting {α : Type} {w : Walk α} (hw : w.Reporting) {c c' : Checker}
    {a : α} :
    (walk w).Passes c a c' ↔ w.Passes c.env c.scopes a c.scopes ∧ c.sink = .empty ∧ c' = c := by
  rw [passes_walk]
  constructor
  · rintro ⟨fs, s', h, hfs, hc, rfl⟩
    obtain ⟨rfl, hall⟩ := hw _ _ fs a s' h
    have hnil : fs = [] := by
      rw [List.filterMap_eq_nil_iff] at hfs
      exact List.eq_nil_iff_forall_not_mem.mpr fun x hx => hall x hx (hfs x hx)
    subst hnil
    exact ⟨⟨[], h, rfl⟩, hc, rfl⟩
  · rintro ⟨⟨fs, h, hfs⟩, hc, rfl⟩
    obtain ⟨-, hall⟩ := hw _ _ fs a _ h
    have hnil : fs = [] := by
      rw [List.filterMap_eq_nil_iff] at hfs
      exact List.eq_nil_iff_forall_not_mem.mpr fun x hx => hall x hx (hfs x hx)
    subst hnil
    exact ⟨[], _, h, rfl, hc, rfl⟩

namespace Checking

open Walk (passes_bind passes_pure passes_reportIf_bind passes_resolveType_bind)

/-! ## Registration -/

theorem reporting_paramSymbols (func : String) (seen : List String) (ps : List Param) :
    (paramSymbols func seen ps).Reporting := by
  induction ps generalizing seen with
  | nil => exact .pure _
  | cons p ps ih =>
    exact (Walk.Reporting.reportIf _ _ _).bind fun _ =>
      (Walk.Reporting.resolveType _ _).bind fun _ => (ih _).bind fun _ => .pure _

theorem paramSymbols_passes_iff {env : Env} {s s' : ScopeStack} {func : String}
    {seen : List String} {ps : List Param} {symbols : List Symbol} :
    (paramSymbols func seen ps).Passes env s symbols s' ↔
      (∀ p ∈ ps, ∃ τ, Names p.type τ) ∧ (ps.map (·.name)).Nodup ∧ (∀ p ∈ ps, p.name ∉ seen) ∧
        symbols = ps.map Param.symbol ∧ s = s' := by
  induction ps generalizing seen symbols s' with
  | nil => simp [paramSymbols, passes_pure, eq_comm]
  | cons p ps ih =>
    rw [paramSymbols, passes_reportIf_bind, passes_resolveType_bind]
    simp only [passes_bind, passes_pure, ih, ← names_iff]
    constructor
    · rintro ⟨hseen, τ, named, rest, _, ⟨htypes, hnodup, hfresh, rfl, rfl⟩, rfl, rfl⟩
      have hτ := Ty.named_of_resolve (names_iff.mp named)
      simp only [List.contains_eq_mem, decide_eq_false_iff_not] at hseen
      refine ⟨?_, ?_, ?_, ?_, rfl⟩
      · simpa using ⟨⟨τ, named⟩, htypes⟩
      · rw [List.map_cons, List.nodup_cons]
        refine ⟨fun hmem => ?_, hnodup⟩
        obtain ⟨q, hq, hname⟩ := List.mem_map.mp hmem
        exact hfresh q hq (by simp [hname])
      · simp only [List.mem_cons, forall_eq_or_imp]
        exact ⟨hseen, fun q hq hmem => hfresh q hq (List.mem_cons_of_mem _ hmem)⟩
      · rw [List.map_cons, Param.symbol, hτ]
    · rintro ⟨htypes, hnodup, hfresh, rfl, rfl⟩
      rw [List.map_cons, List.nodup_cons] at hnodup
      obtain ⟨τ, named⟩ := htypes p List.mem_cons_self
      have hτ := Ty.named_of_resolve (names_iff.mp named)
      refine ⟨by simpa using hfresh p List.mem_cons_self, τ, named, _, s,
        ⟨?_, hnodup.2, ?_, rfl, rfl⟩, ?_, rfl⟩
      · exact fun q hq => htypes q (List.mem_cons_of_mem _ hq)
      · intro q hq hmem
        rcases List.mem_cons.mp hmem with hname | hmem
        · exact hnodup.1 (List.mem_map.mpr ⟨q, hq, hname⟩)
        · exact hfresh q (List.mem_cons_of_mem _ hq) hmem
      · rw [List.map_cons, Param.symbol, hτ]

theorem grows_register (f : FunctionDef) (type : Ty) (parameters : List Symbol) :
    CheckM.Grows (do
      if (← get).functions.contains f.name then
        CheckM.walk (Walk.report (.duplicateFunction f.name) f.loc)
      else
        modify fun c =>
          { c with functions := c.functions.insert f.name (f.symbol type parameters) }) := by
  refine CheckM.Grows.get.bind fun c => ?_
  split
  · exact .walk _
  · exact .modify fun c => ⟨[], rfl⟩

theorem grows_registerFunction (f : FunctionDef) : (registerFunction f).Grows :=
  (CheckM.Grows.walk _).bind fun type => (CheckM.Grows.walk _).bind fun parameters =>
    grows_register f type parameters

theorem grows_registerFunctions (fs : List FunctionDef) : (registerFunctions fs).Grows := by
  induction fs with
  | nil => exact .pure ()
  | cons f fs ih => exact (grows_registerFunction f).bind fun _ => ih

theorem registerFunction_passes_iff {f : FunctionDef} {c c' : Checker} {u : Unit} :
    (registerFunction f).Passes c u c' ↔
      f.Declared ∧ f.name ∉ c.functions.keys ∧ c.sink = .empty ∧
        c' = { c with functions := ⟨c.functions.entries ++ [f.entry]⟩ } := by
  rw [registerFunction, CheckM.passes_bind fun type => (CheckM.Grows.walk _).bind fun parameters =>
    grows_register f type parameters]
  simp only [CheckM.passes_walk_reporting (.resolveType _ _), Walk.passes_resolveType, and_true]
  constructor
  · rintro ⟨τ, _, ⟨hτ, hsink, rfl⟩, hrest⟩
    obtain ⟨symbols, _, hparams, h⟩ := (CheckM.passes_bind (grows_register f τ)).mp hrest
    rw [CheckM.passes_walk_reporting (reporting_paramSymbols _ _ _),
      paramSymbols_passes_iff] at hparams
    obtain ⟨⟨htypes, hdistinct, -, rfl, -⟩, -, rfl⟩ := hparams
    rw [CheckM.passes_get_bind] at h
    split at h
    · rw [CheckM.passes_walk_reporting (.report _ _)] at h
      exact absurd h.1 Walk.not_passes_report
    · next hfree =>
      rw [FunctionTable.contains_iff_mem_keys] at hfree
      refine ⟨⟨⟨τ, names_iff.mpr hτ⟩, htypes, hdistinct⟩, hfree, hsink, ?_⟩
      rw [(CheckM.passes_modify.mp h).1, FunctionTable.insert_of_not_mem hfree, FunctionDef.entry,
        Ty.named_of_resolve hτ]
  · rintro ⟨⟨⟨τ, named⟩, htypes, hdistinct⟩, hfree, hsink, rfl⟩
    have hτ := names_iff.mp named
    refine ⟨τ, c, ⟨hτ, hsink, rfl⟩, (CheckM.passes_bind (grows_register f τ)).mpr
      ⟨f.params.map Param.symbol, c, ?_, ?_⟩⟩
    · rw [CheckM.passes_walk_reporting (reporting_paramSymbols _ _ _), paramSymbols_passes_iff]
      exact ⟨⟨htypes, hdistinct, by simp, rfl, rfl⟩, hsink, rfl⟩
    · rw [CheckM.passes_get_bind, if_neg (by rwa [FunctionTable.contains_iff_mem_keys])]
      refine CheckM.passes_modify.mpr ⟨?_, hsink⟩
      rw [FunctionTable.insert_of_not_mem hfree, FunctionDef.entry, Ty.named_of_resolve hτ]

/-- Functions are registered in order. -/
theorem registerFunctions_passes_iff {fs : List FunctionDef} {c c' : Checker} {u : Unit} :
    (registerFunctions fs).Passes c u c' ↔
      (∀ f ∈ fs, f.Declared) ∧ (fs.map (·.name)).Nodup ∧ (∀ f ∈ fs, f.name ∉ c.functions.keys) ∧
        c.sink = .empty ∧
        c' = { c with functions := ⟨c.functions.entries ++ fs.map FunctionDef.entry⟩ } := by
  induction fs generalizing c with
  | nil =>
    simp only [registerFunctions, List.map_nil, List.append_nil, List.not_mem_nil, false_implies,
      implies_true, List.nodup_nil, true_and]
    constructor
    · rintro ⟨h, hsink⟩
      cases h
      exact ⟨hsink, rfl⟩
    · rintro ⟨hsink, rfl⟩
      exact ⟨rfl, hsink⟩
  | cons f fs ih =>
    rw [registerFunctions, CheckM.passes_bind fun _ => grows_registerFunctions fs]
    simp only [registerFunction_passes_iff, ih, List.mem_cons, forall_eq_or_imp, List.map_cons,
      List.nodup_cons]
    constructor
    · rintro ⟨_, _, ⟨hf, hfree, hsink, rfl⟩, hfs, hnodup, hfrees, -, rfl⟩
      simp only [FunctionTable.keys, List.map_append, List.mem_append, not_or] at hfrees
      refine ⟨⟨hf, hfs⟩, ⟨fun hmem => ?_, hnodup⟩, ⟨hfree, fun g hg => (hfrees g hg).1⟩, hsink, ?_⟩
      · obtain ⟨g, hg, hname⟩ := List.mem_map.mp hmem
        exact (hfrees g hg).2 (by simp [hname, FunctionDef.entry])
      · simp
    · rintro ⟨⟨hf, hfs⟩, ⟨hnot, hnodup⟩, ⟨hfree, hfrees⟩, hsink, rfl⟩
      refine ⟨(), _, ⟨hf, hfree, hsink, rfl⟩, hfs, hnodup, fun g hg => ?_, hsink, by simp⟩
      simp only [FunctionTable.keys, List.map_append, List.mem_append, not_or]
      refine ⟨hfrees g hg, fun hname => hnot ?_⟩
      simp only [List.map_cons, List.map_nil, List.mem_singleton, FunctionDef.entry] at hname
      exact List.mem_map.mpr ⟨g, hg, hname⟩

end Checking

/-! ## The registered signatures -/

theorem FunctionDef.signs_iff {f : FunctionDef} (hf : f.Declared) {sig : Signature} :
    f.Signs sig ↔ f.entry.2.signature = sig := by
  obtain ⟨⟨τ, named⟩, htypes, -⟩ := hf
  have hτ := names_iff.mp named
  have hparams : f.params.map (fun p => Ty.resolve p.type) =
      (f.params.map fun p => Ty.named p.type).map .ok := by
    rw [List.map_map]
    refine List.map_congr_left fun p hp => ?_
    obtain ⟨σ, hσ⟩ := htypes p hp
    rw [Function.comp_apply, Ty.named, names_iff.mp hσ]
  have hsymbols : (f.params.map Param.symbol).map (·.type) = f.params.map fun p => Ty.named p.type :=
    List.map_map ..
  obtain ⟨type, parameters, isMain⟩ := sig
  simp only [Signs, entry, FunctionSymbol.signature, FunctionDef.symbol, hparams, hsymbols, hτ,
    Ty.named_of_resolve hτ, Except.ok.injEq, Signature.mk.injEq,
    List.map_inj_right (fun _ _ => Except.ok.inj)]
  refine and_congr_right fun _ => and_congr_right fun _ => ?_
  cases isMain <;> simp

/-- A table with the signatures of registered functions serves the typing rules. -/
theorem serves_registered {fs : List FunctionDef} {env : Env} {t : FunctionTable}
    (henv : ∀ name, env.callee? name = (t.find? name).map (·.signature))
    (ht : t.signatures = FunctionTable.signatures ⟨fs.map FunctionDef.entry⟩)
    (hfs : ∀ f ∈ fs, f.Declared) (hnodup : (fs.map (·.name)).Nodup) : env.Serves fs := by
  intro name sig
  have hkeys : ((FunctionTable.signatures ⟨fs.map FunctionDef.entry⟩).map Prod.fst).Nodup := by
    simpa [FunctionTable.signatures, FunctionDef.entry, Function.comp_def] using hnodup
  rw [henv, FunctionTable.find?_signature, ht, lookup_eq_some_iff_mem hkeys]
  simp only [FunctionTable.signatures, List.map_map, List.mem_map]
  constructor
  · rintro ⟨f, hf, he⟩
    obtain ⟨hname, hsig⟩ := Prod.mk.inj he
    exact ⟨f, hf, hname, (FunctionDef.signs_iff (hfs f hf)).mpr hsig⟩
  · rintro ⟨f, hf, rfl, hsig⟩
    exact ⟨f, hf, Prod.ext rfl ((FunctionDef.signs_iff (hfs f hf)).mp hsig)⟩

end Sema
