import Sema.Proofs.Checking.Functions
import Sema.Proofs.Data.Firsts

/-!
# Steps that succeed

What a step of a check leaves if it succeeds (`CheckM.Gives`), with all the diagnostics that it
files. Heads of functions are walked with the same reports wherever they stand (`Walk.Reports`), so
the registration of functions always succeeds, and fills the table with the first functions of each
name (`registerFunctions_gives_iff`).

Walks over bodies find no global variable, and no violation of the program as a whole
(`finds_checkBody`).
-/

namespace Sema

/-! ## Steps -/

namespace CheckM

variable {α β : Type} {c c' : Checker}

/-- The step succeeds with the value `a` and leaves the checker `c'`. -/
def Gives (m : CheckM α) (c : Checker) (a : α) (c' : Checker) : Prop :=
  m.run c = (.ok a, c')

theorem gives_bind {m : CheckM α} {f : α → CheckM β} {b : β} :
    (m >>= f).Gives c b c' ↔ ∃ a c₁, m.Gives c a c₁ ∧ (f a).Gives c₁ b c' := by
  simp only [Gives, run_bind]
  constructor
  · intro h
    cases hr : m.run c with
    | mk r c₁ =>
      rw [hr] at h
      cases r with
      | error e => cases h
      | ok a => exact ⟨a, c₁, rfl, h⟩
  · rintro ⟨a, c₁, h₁, h⟩
    rw [h₁]
    exact h

theorem gives_bind_of_iff {m : CheckM Unit} {f : Unit → CheckM β} {b : β} {p : Prop} {c₁ : Checker}
    (hm : ∀ u c', m.Gives c u c' ↔ p ∧ c' = c₁) :
    (m >>= f).Gives c b c' ↔ p ∧ (f ()).Gives c₁ b c' := by
  rw [gives_bind]
  constructor
  · rintro ⟨_, _, h, hf⟩
    obtain ⟨hp, rfl⟩ := (hm _ _).mp h
    exact ⟨hp, hf⟩
  · rintro ⟨hp, hf⟩
    exact ⟨(), c₁, (hm _ _).mpr ⟨hp, rfl⟩, hf⟩

theorem gives_pure {a b : α} : (pure a : CheckM α).Gives c b c' ↔ b = a ∧ c' = c := by
  constructor
  · intro h
    cases h
    exact ⟨rfl, rfl⟩
  · rintro ⟨rfl, rfl⟩
    rfl

theorem gives_get_bind {f : Checker → CheckM β} {b : β} :
    ((get : CheckM Checker) >>= f).Gives c b c' ↔ (f c).Gives c b c' :=
  Iff.rfl

theorem gives_modify {g : Checker → Checker} {u : Unit} :
    (modify g : CheckM Unit).Gives c u c' ↔ c' = g c := by
  constructor
  · intro h
    cases h
    rfl
  · rintro rfl
    rfl

theorem gives_setCurrent {current : Current} {u : Unit} :
    (setCurrent current).Gives c u c' ↔ c' = { c with current } :=
  gives_modify

theorem gives_setCurrent_bind {current : Current} {f : Unit → CheckM β} {b : β} :
    (setCurrent current >>= f).Gives c b c' ↔ (f ()).Gives { c with current } b c' :=
  Iff.rfl

theorem gives_walk {w : Walk α} {a : α} :
    (walk w).Gives c a c' ↔
      ∃ fs s', w.Gives c.env c.scopes fs a s' ∧
        c' = fs.foldl Checker.absorb { c with scopes := s' } := by
  constructor
  · intro h
    obtain ⟨hv, rfl⟩ := Prod.mk.inj h
    refine ⟨_, _, ?_, rfl⟩
    rw [Walk.Gives, ← hv]
  · rintro ⟨fs, s', h, rfl⟩
    exact run_walk h

end CheckM

/-! ## Walks that report the same wherever they start -/

namespace Walk

variable {α β : Type}

/-- Wherever it starts, the walk has the value `a`, files `ds` and does nothing else. -/
def Reports (w : Walk α) (ds : List Diagnostic) (a : α) : Prop :=
  ∀ env s, ∃ fs, w.Gives env s fs a s ∧ (∀ finding ∈ fs, finding.diagnostic? ≠ none) ∧
    fs.filterMap Finding.diagnostic? = ds

theorem Reports.bind {w : Walk α} {f : α → Walk β} {ds es : List Diagnostic} {a : α} {b : β}
    (hw : w.Reports ds a) (hf : (f a).Reports es b) : (w >>= f).Reports (ds ++ es) b := by
  intro env s
  obtain ⟨fs₁, h₁, hall₁, rfl⟩ := hw env s
  obtain ⟨fs₂, h₂, hall₂, rfl⟩ := hf env s
  refine ⟨fs₁ ++ fs₂, gives_bind.mpr ⟨fs₁, a, s, fs₂, h₁, h₂, rfl⟩, ?_, List.filterMap_append⟩
  intro finding hmem
  rcases List.mem_append.mp hmem with hmem | hmem
  · exact hall₁ finding hmem
  · exact hall₂ finding hmem

theorem Reports.eq_of_gives {w : Walk α} {ds : List Diagnostic} {a b : α} {env : Env}
    {s s' : ScopeStack} {fs : List Finding} (hw : w.Reports ds a) (h : w.Gives env s fs b s') :
    b = a ∧ s' = s ∧ ∀ finding ∈ fs, finding.diagnostic? ≠ none := by
  obtain ⟨fs', h', hall, -⟩ := hw env s
  rw [Gives] at h h'
  rw [h] at h'
  cases h'
  exact ⟨rfl, rfl, hall⟩

theorem Reports.pure (a : α) : (pure a : Walk α).Reports [] a :=
  fun _ _ => ⟨[], rfl, by simp, rfl⟩

theorem Reports.report (v : Violation) (loc : Location) :
    (report v loc).Reports [v.located loc] () :=
  fun _ _ => ⟨[.violation v loc], rfl, by simp [Finding.diagnostic?], rfl⟩

theorem Reports.reportIf (broken : Bool) (v : Violation) (loc : Location) :
    (reportIf broken v loc).Reports (if broken then [v.located loc] else []) () := by
  cases broken with
  | false => exact .pure ()
  | true => exact .report v loc

end Walk

theorem Checker.absorbed_violations (c : Checker) {fs : List Finding}
    (h : ∀ finding ∈ fs, finding.diagnostic? ≠ none) :
    fs.foldl absorb c = { c with sink := c.sink.extend (fs.filterMap Finding.diagnostic?) } := by
  induction fs generalizing c with
  | nil => rfl
  | cons finding fs ih =>
    have ih := ih (c.absorb finding) fun x hx => h x (List.mem_cons_of_mem _ hx)
    cases finding with
    | violation v loc =>
      rw [List.foldl_cons, ih]
      rfl
    | _ => exact absurd rfl (h _ List.mem_cons_self)

theorem CheckM.gives_walk_reports {α : Type} {w : Walk α} {ds : List Diagnostic} {a b : α}
    (hw : w.Reports ds a) {c c' : Checker} :
    (walk w).Gives c b c' ↔ b = a ∧ c' = { c with sink := c.sink.extend ds } := by
  obtain ⟨fs, h, hall, rfl⟩ := hw c.env c.scopes
  have hrun : (walk w).Gives c a { c with sink := c.sink.extend (fs.filterMap _) } :=
    gives_walk.mpr ⟨fs, c.scopes, h, (c.absorbed_violations hall).symm⟩
  constructor
  · intro h'
    rw [CheckM.Gives, show (walk w).run c = _ from hrun] at h'
    cases h'
    exact ⟨rfl, rfl⟩
  · rintro ⟨rfl, rfl⟩
    exact hrun

theorem CheckM.gives_walk_reports_bind {α β : Type} {w : Walk α} {f : α → CheckM β}
    {ds : List Diagnostic} {a : α} {b : β} (hw : w.Reports ds a) {c c' : Checker} :
    (walk w >>= f).Gives c b c' ↔ (f a).Gives { c with sink := c.sink.extend ds } b c' := by
  rw [gives_bind]
  constructor
  · rintro ⟨_, _, hwalk, hf⟩
    obtain ⟨rfl, rfl⟩ := (gives_walk_reports hw).mp hwalk
    exact hf
  · intro hf
    exact ⟨a, _, (gives_walk_reports hw).mpr ⟨rfl, rfl⟩, hf⟩

/-! ## Heads of functions -/

def typeReports (name : Option String) (loc : Location) : List Diagnostic :=
  match Ty.resolve name with
  | .ok _ => []
  | .error e => [(Violation.undefinedType e).located loc]

/-- What the parameters of a function report; `seen` holds the names before them. -/
def paramReports (func : String) : List String → List Param → List Diagnostic
  | _, [] => []
  | seen, p :: ps =>
    (if seen.contains p.name then [(Violation.duplicateParameter p.name func).located p.loc]
      else []) ++
      (typeReports p.type p.loc ++ paramReports func (p.name :: seen) ps)

theorem exists_of_mem_typeReports {name : Option String} {loc : Location} {d : Diagnostic}
    (h : d ∈ typeReports name loc) :
    ∃ e, Ty.resolve name = .error e ∧ d = (Violation.undefinedType e).located loc := by
  unfold typeReports at h
  split at h
  · cases h
  · next e he => exact ⟨e, he, List.mem_singleton.mp h⟩

theorem exists_of_mem_paramReports {func : String} {seen : List String} {ps : List Param}
    {d : Diagnostic} (h : d ∈ paramReports func seen ps) :
    ∃ p ∈ ps, d = (Violation.duplicateParameter p.name func).located p.loc ∨
      d ∈ typeReports p.type p.loc := by
  induction ps generalizing seen with
  | nil => cases h
  | cons p ps ih =>
    rw [paramReports, List.mem_append, List.mem_append] at h
    rcases h with h | h | h
    · split at h
      · exact ⟨p, .head _, .inl (List.mem_singleton.mp h)⟩
      · cases h
    · exact ⟨p, .head _, .inr h⟩
    · obtain ⟨p', hp', h⟩ := ih h
      exact ⟨p', .tail _ hp', h⟩

def FunctionDef.headReports (f : FunctionDef) : List Diagnostic :=
  typeReports f.returnType f.loc ++ paramReports f.name [] f.params

def FunctionDef.duplicateReport (f : FunctionDef) : Diagnostic :=
  (Violation.duplicateFunction f.name).located f.loc

/-- What the registration of functions reports; `seen` holds the names before them. -/
def registrationReports : List String → List FunctionDef → List Diagnostic
  | _, [] => []
  | seen, f :: fs =>
    f.headReports ++ ((if f.name ∈ seen then [f.duplicateReport] else []) ++
      registrationReports (f.name :: seen) fs)

theorem registrationReports_congr {seen seen' : List String} (h : ∀ k, k ∈ seen ↔ k ∈ seen')
    (fs : List FunctionDef) : registrationReports seen fs = registrationReports seen' fs := by
  induction fs generalizing seen seen' with
  | nil => rfl
  | cons f fs ih =>
    have hcons : ∀ k, k ∈ f.name :: seen ↔ k ∈ f.name :: seen' := by simp [h]
    simp only [registrationReports, ih hcons, h]

theorem Walk.reports_resolveType (name : Option String) (loc : Location) :
    (resolveType name loc).Reports (typeReports name loc) (Ty.named name) := by
  unfold resolveType typeReports Ty.named
  cases Ty.resolve name with
  | ok τ => exact .pure τ
  | error e => exact (Reports.report _ _).bind (.pure _)

namespace Checking

open CheckM (walk setCurrent)

variable {c c' : Checker} {f : FunctionDef} {u : Unit}

theorem reports_paramSymbols (func : String) (seen : List String) (ps : List Param) :
    (paramSymbols func seen ps).Reports (paramReports func seen ps) (ps.map Param.symbol) := by
  induction ps generalizing seen with
  | nil => exact .pure []
  | cons p ps ih =>
    rw [paramSymbols, paramReports]
    refine Walk.Reports.bind (Walk.Reports.reportIf _ _ _) ?_
    refine Walk.Reports.bind (Walk.reports_resolveType _ _) ?_
    rw [← List.append_nil (paramReports func (p.name :: seen) ps)]
    exact Walk.Reports.bind (ih _) (.pure _)

theorem registerFunction_gives_iff :
    (registerFunction f).Gives c u c' ↔
      c' = if f.name ∈ c.functions.keys then
          { c with sink := c.sink.extend (f.headReports ++ [f.duplicateReport]) }
        else
          { c with
            sink := c.sink.extend f.headReports
            functions := ⟨c.functions.entries ++ [f.entry]⟩ } := by
  rw [registerFunction, CheckM.gives_walk_reports_bind (Walk.reports_resolveType _ _),
    CheckM.gives_walk_reports_bind (reports_paramSymbols _ _ _), CheckM.gives_get_bind]
  simp only [FunctionTable.contains_iff_mem_keys, ← Sink.extend_append]
  by_cases h : f.name ∈ c.functions.keys
  · rw [if_pos h, if_pos h, CheckM.gives_walk_reports (.report _ _), ← Sink.extend_append,
      and_iff_right rfl]
    rfl
  · rw [if_neg h, if_neg h, CheckM.gives_modify, FunctionTable.insert_of_not_mem h]
    rfl

/-- The table gets the first functions of each name. -/
theorem registerFunctions_gives_iff {fs : List FunctionDef} :
    (registerFunctions fs).Gives c u c' ↔
      c' = { c with
        functions :=
          ⟨c.functions.entries ++ (firsts (·.name) c.functions.keys fs).map FunctionDef.entry⟩
        sink := c.sink.extend (registrationReports c.functions.keys fs) } := by
  induction fs generalizing c with
  | nil => simp [registerFunctions, CheckM.gives_pure, firsts, registrationReports]
  | cons f fs ih =>
    simp only [registerFunctions, CheckM.gives_bind, registerFunction_gives_iff, exists_eq_left]
    rw [exists_const, ih, registrationReports]
    by_cases h : f.name ∈ c.functions.keys
    · have hkeys : ∀ k, k ∈ f.name :: c.functions.keys ↔ k ∈ c.functions.keys := by
        simpa using h
      simp only [if_pos h, firsts_cons_of_mem h, registrationReports_congr hkeys,
        ← Sink.extend_append, List.append_assoc]
    · have hkeys : ∀ k, k ∈ f.name :: c.functions.keys ↔ k ∈ c.functions.keys ++ [f.name] := by
        simp [or_comm]
      simp only [if_neg h, firsts_cons_of_not_mem h, registrationReports_congr hkeys,
        firsts_congr hkeys, ← Sink.extend_append, List.nil_append]
      simp [FunctionTable.keys, FunctionDef.entry]

end Checking

/-! ## What walks find -/

namespace Walk

variable {α β : Type} {Q : Finding → Prop}

/-- Whether a walk that succeeds finds only what `Q` admits. -/
def Finds (Q : Finding → Prop) (w : Walk α) : Prop :=
  ∀ env s fs a s', w.Gives env s fs a s' → ∀ finding ∈ fs, Q finding

theorem Finds.bind {w : Walk α} {f : α → Walk β} (hw : w.Finds Q) (hf : ∀ a, (f a).Finds Q) :
    (w >>= f).Finds Q := by
  intro env s fs b s' h finding hmem
  obtain ⟨fs₁, a, s₁, fs₂, h₁, h₂, rfl⟩ := gives_bind.mp h
  rcases List.mem_append.mp hmem with hmem | hmem
  · exact hw env s fs₁ a s₁ h₁ finding hmem
  · exact hf a env s₁ fs₂ b s' h₂ finding hmem

theorem finds_read {g : Env → ScopeStack → α} :
    Finds Q (fun env s => ⟨s, [], .ok (g env s)⟩) := by
  intro env s fs a s' h finding hmem
  obtain ⟨-, -, rfl⟩ := gives_read.mp h
  cases hmem

theorem finds_find {finding : Finding} (h : Q finding) : (find finding).Finds Q := by
  intro env s fs u s' hg x hmem
  obtain ⟨-, rfl⟩ := gives_find.mp hg
  rwa [List.mem_singleton.mp hmem]

theorem finds_fail (e : CheckError) : (fail e : Walk α).Finds Q :=
  fun _ _ _ _ _ h => absurd h not_gives_fail

theorem finds_declare (symbol : Symbol) : (declare symbol).Finds Q := by
  intro env s fs b s' h finding hmem
  obtain ⟨-, rfl⟩ := gives_declare.mp h
  cases hmem

theorem finds_push : push.Finds Q := by
  intro env s fs u s' h finding hmem
  obtain ⟨-, rfl⟩ := gives_push.mp h
  cases hmem

theorem finds_pop : pop.Finds Q := by
  intro env s fs u s' h finding hmem
  obtain ⟨-, rfl⟩ := gives_pop.mp h
  cases hmem

theorem Finds.enclosed {w : Walk Unit} (hw : w.Finds Q) : (enclosed w).Finds Q :=
  finds_push.bind fun _ => hw.bind fun _ => finds_pop

theorem closed_finds {L : Location → Prop}
    (hreport : ∀ v loc, L loc → (Finding.violation v loc).OfWalk → Q (.violation v loc))
    (hself : Q .selfCall) : ClosedAt L fun w => w.Finds Q where
  pure _ := finds_read
  bind := Finds.bind
  callee? _ := finds_read
  caller := finds_read
  resolve _ := finds_read
  report v loc hloc hv := finds_find (hreport v loc hloc hv)
  selfCall := finds_find hself

theorem closedInFrames_finds {L : Location → Prop}
    (hfind : ∀ finding : Finding, finding.At L → finding.OfWalk → finding.global? = none →
      Q finding) : ClosedInFramesAt L fun w => w.Finds Q where
  toClosedAt := closed_finds (fun _ _ hloc hv => hfind _ hloc hv rfl) (hfind _ trivial trivial rfl)
  find finding hloc hwalk hglobal := finds_find (hfind finding hloc hwalk hglobal)
  declare := finds_declare
  enclosed := Finds.enclosed

end Walk

/-- Whether a finding can be made in a function: a walk makes it, and it is no global variable. -/
def Finding.Inner (finding : Finding) : Prop :=
  finding.OfWalk ∧ finding.global? = none

namespace Walk

theorem closedInFrames_finds_inner : ClosedInFrames fun w => w.Finds Finding.Inner :=
  closedInFrames_finds fun _ _ hwalk hglobal => ⟨hwalk, hglobal⟩

end Walk

namespace Checking

open Walk

section finds

variable {L : Location → Prop} {Q : Finding → Prop}

theorem finds_bindParams (hQ : ClosedInFramesAt L fun w => w.Finds Q) (func : String)
    (ps : List Param) (hL : ∀ p ∈ ps, L p.loc) : (bindParams func ps).Finds Q := by
  induction ps with
  | nil => exact finds_read
  | cons p ps ih =>
    obtain ⟨hloc, hL⟩ := List.forall_mem_cons.mp hL
    exact (hQ.resolveType _ _ hloc).bind fun _ => (finds_declare _).bind fun _ =>
      (hQ.reportIf _ _ _ hloc).bind fun _ => ih hL

theorem finds_checkBody_of (hQ : ClosedInFramesAt L fun w => w.Finds Q) {f : FunctionDef}
    (hL : (Node.function f).Everywhere L) : (checkBody f).Finds Q :=
  finds_push.bind fun _ => (finds_bindParams hQ _ _ hL.params).bind fun _ =>
    closed_checkStmts hQ _ (.inr finds_fail) fun _ hs => hL.body.child (List.mem_map_of_mem hs)

end finds

/-- The walk over a function finds no global variable, and no violation of the whole program. -/
theorem finds_checkBody (f : FunctionDef) : (checkBody f).Finds Finding.Inner :=
  finds_checkBody_of closedInFrames_finds_inner .of_true

theorem finds_checkExpr (e : Expr) : (checkExpr e).Finds Finding.Inner :=
  closed_checkExpr closedInFrames_finds_inner.toClosedAt e (.inr finds_fail)

end Checking

end Sema
