import Sema.Checking.Checker
import Sema.Proofs.Checking.Passing

/-!
# Steps of a check

A step of a check only ever adds to the diagnostics (`CheckM.Grows`), so a check without diagnostics
had none after each of its steps. A step passes if it succeeds and leaves no diagnostic
(`CheckM.Passes`); a walk within a check passes if it passes by itself (`passes_walk`).

What a checker takes in from findings depends on the function that it is in (`absorbed_nowhere`,
`absorbed_entry`, `absorbed_detached`). It changes no scope and no signature (`absorbed_frame`), so
the surroundings of walks stay the same.
-/

namespace Sema

/-! ## The sink -/

namespace Sink

theorem items_add_ne_nil {s : Sink} {d : Diagnostic} (h : s.items = [] → s.seen = []) :
    (s.add d).2.items ≠ [] := by
  unfold add
  split
  · next hd =>
    intro hi
    simp [h hi] at hd
  · simp

theorem exists_items_extend (s : Sink) (ds : List Diagnostic) :
    ∃ more, (s.extend ds).items = s.items ++ more := by
  induction ds generalizing s with
  | nil => exact ⟨[], by simp⟩
  | cons d ds ih =>
    obtain ⟨more, h⟩ := ih (s.add d).2
    rw [extend_cons, h]
    unfold add
    split
    · exact ⟨more, rfl⟩
    · exact ⟨d :: more, by simp⟩

theorem items_extend_empty_eq_nil_iff {ds : List Diagnostic} :
    (empty.extend ds).items = [] ↔ ds = [] := by
  cases ds with
  | nil => simp [empty]
  | cons d ds =>
    obtain ⟨more, h⟩ := exists_items_extend (empty.add d).2 ds
    rw [extend_cons, h, List.append_eq_nil_iff]
    simp [items_add_ne_nil (fun _ => rfl : empty.items = [] → empty.seen = [])]

theorem seen_add_ne_nil (s : Sink) (d : Diagnostic) : (s.add d).2.seen ≠ [] := by
  unfold add
  split
  · next hd =>
    intro hs
    rw [show s.seen = [] from hs] at hd
    cases hd
  · simp

theorem extend_eq_empty_iff {s : Sink} {ds : List Diagnostic} :
    s.extend ds = empty ↔ s = empty ∧ ds = [] := by
  induction ds generalizing s with
  | nil => simp
  | cons d ds ih =>
    rw [extend_cons, ih]
    refine iff_of_false (fun h => seen_add_ne_nil s d ?_) (fun h => nomatch h.2)
    rw [h.1]
    rfl

end Sink

/-! ## What a checker takes in -/

def FunctionTable.signatures (t : FunctionTable) : List (String × Signature) :=
  t.entries.map fun (key, f) => (key, f.signature)

namespace FunctionTable

theorem lookup_map_values {α β : Type} (g : String → α → β) (l : List (String × α))
    (key : String) :
    (l.map fun e => (e.1, g e.1 e.2)).lookup key = (l.lookup key).map (g key) := by
  induction l with
  | nil => rfl
  | cons e l ih =>
    obtain ⟨k, a⟩ := e
    rw [List.map_cons, List.lookup_cons, List.lookup_cons]
    by_cases hk : key = k
    · subst hk
      simp
    · simp only [beq_false_of_ne hk]
      exact ih

theorem find?_signature (t : FunctionTable) (key : String) :
    (t.find? key).map (·.signature) = t.signatures.lookup key :=
  (lookup_map_values (fun _ f => f.signature) t.entries key).symm

theorem modify_of_eq_self {t : FunctionTable} {key : String}
    {g : FunctionSymbol → FunctionSymbol} (hg : ∀ f, g f = f) : t.modify key g = t := by
  obtain ⟨entries⟩ := t
  simp [modify, hg]

theorem modify_modify (t : FunctionTable) (key : String) (g h : FunctionSymbol → FunctionSymbol) :
    (t.modify key g).modify key h = t.modify key (h ∘ g) := by
  simp only [modify, List.map_map]
  congr 1
  refine List.map_congr_left fun e _ => ?_
  by_cases he : e.1 = key <;> simp [he]

theorem find?_modify (t : FunctionTable) (key key' : String)
    (g : FunctionSymbol → FunctionSymbol) :
    (t.modify key g).find? key' = (t.find? key').map fun f => if key' = key then g f else f := by
  rw [find?, find?, ← lookup_map_values (fun k f => if k = key then g f else f), modify]
  refine congrArg _ (List.map_congr_left fun e _ => ?_)
  by_cases h : e.1 = key <;> simp [h]

end FunctionTable

@[simp] theorem FunctionSymbol.signature_note (f : FunctionSymbol) (finding : Finding) :
    (f.note finding).signature = f.signature := by
  cases finding <;> rfl

theorem FunctionTable.signatures_modify (t : FunctionTable) (key : String)
    {g : FunctionSymbol → FunctionSymbol} (hg : ∀ f, (g f).signature = f.signature) :
    (t.modify key g).signatures = t.signatures := by
  simp only [signatures, modify, List.map_map]
  refine List.map_congr_left fun e _ => ?_
  by_cases h : e.1 = key <;> simp [h, hg]

theorem FunctionSymbol.hasReturn_note (f : FunctionSymbol) (finding : Finding) :
    (f.note finding).hasReturn = true ↔ f.hasReturn = true ∨ finding = .returned := by
  cases finding <;> simp [note]

theorem FunctionSymbol.hasReturn_foldl_note (f : FunctionSymbol) (fs : List Finding) :
    (fs.foldl note f).hasReturn = true ↔ f.hasReturn = true ∨ .returned ∈ fs := by
  induction fs generalizing f with
  | nil => simp
  | cons finding fs ih =>
    rw [List.foldl_cons, ih, hasReturn_note, List.mem_cons, or_assoc,
      eq_comm (a := Finding.returned)]

theorem FunctionSymbol.signature_foldl_note (f : FunctionSymbol) (fs : List Finding) :
    (fs.foldl note f).signature = f.signature := by
  induction fs generalizing f with
  | nil => rfl
  | cons finding fs ih => rw [List.foldl_cons, ih, signature_note]

theorem FunctionSymbol.signature_type (f : FunctionSymbol) : f.signature.type = f.type := rfl

namespace Checker

/-- A finding files its diagnostic, adds its global variable and is noted in the function that the
checker is in. -/
theorem absorb_eq (c : Checker) (finding : Finding) :
    c.absorb finding =
      { scopes := c.scopes
        functions := (c.note finding).functions
        globals := c.globals ++ finding.global?.toList
        sink := c.sink.extend finding.diagnostic?.toList
        current := (c.note finding).current } := by
  obtain ⟨scopes, functions, globals, sink, current⟩ := c
  cases finding <;> cases current <;>
    simp [absorb, note, file, Finding.diagnostic?, Finding.global?, FunctionSymbol.note,
      FunctionTable.modify_of_eq_self]

theorem extend_diagnostics_cons (s : Sink) (finding : Finding) (fs : List Finding) :
    (s.extend finding.diagnostic?.toList).extend (fs.filterMap Finding.diagnostic?) =
      s.extend ((finding :: fs).filterMap Finding.diagnostic?) := by
  rw [← Sink.extend_append]
  cases hd : finding.diagnostic? <;> simp [hd]

/-- Outside of functions, findings file their diagnostics and add their global variables. -/
theorem absorbed_nowhere (c : Checker) (h : c.current = .nowhere) (fs : List Finding) :
    fs.foldl absorb c =
      { c with
        sink := c.sink.extend (fs.filterMap Finding.diagnostic?)
        globals := c.globals ++ fs.filterMap Finding.global? } := by
  induction fs generalizing c with
  | nil => simp
  | cons finding fs ih =>
    have hnote : c.note finding = c := by simp only [note, h]
    rw [List.foldl_cons, absorb_eq, hnote, ih _ (by exact h)]
    simp only [extend_diagnostics_cons, List.append_assoc]
    cases hg : finding.global? <;> simp [hg]

/-- In an entry of the table, findings are noted there too. -/
theorem absorbed_entry (c : Checker) {key : String} (h : c.current = .entry key)
    (fs : List Finding) :
    fs.foldl absorb c =
      { c with
        sink := c.sink.extend (fs.filterMap Finding.diagnostic?)
        globals := c.globals ++ fs.filterMap Finding.global?
        functions := c.functions.modify key fun f => fs.foldl FunctionSymbol.note f } := by
  induction fs generalizing c with
  | nil => simp [FunctionTable.modify_of_eq_self]
  | cons finding fs ih =>
    have hnote : c.note finding =
        { c with functions := c.functions.modify key (·.note finding) } := by simp only [note, h]
    rw [List.foldl_cons, absorb_eq, hnote, ih _ (by exact h)]
    simp only [extend_diagnostics_cons, List.append_assoc, FunctionTable.modify_modify]
    cases hg : finding.global? <;> simp [hg, Function.comp_def]

/-- In a function outside of the table, findings are noted in that function. -/
theorem absorbed_detached (c : Checker) {f : FunctionSymbol} (h : c.current = .detached f)
    (fs : List Finding) :
    fs.foldl absorb c =
      { c with
        sink := c.sink.extend (fs.filterMap Finding.diagnostic?)
        globals := c.globals ++ fs.filterMap Finding.global?
        current := .detached (fs.foldl FunctionSymbol.note f) } := by
  induction fs generalizing c f with
  | nil => simp [← h]
  | cons finding fs ih =>
    have hnote : c.note finding = { c with current := .detached (f.note finding) } := by
      simp only [note, h]
    rw [List.foldl_cons, absorb_eq, hnote, ih _ rfl]
    simp only [extend_diagnostics_cons, List.append_assoc]
    cases hg : finding.global? <;> simp [hg]

/-- Findings leave the scopes and the signatures as they are, and file their diagnostics. -/
theorem absorbed_frame (c : Checker) (fs : List Finding) :
    (fs.foldl absorb c).scopes = c.scopes ∧
      (fs.foldl absorb c).sink = c.sink.extend (fs.filterMap Finding.diagnostic?) ∧
      (fs.foldl absorb c).functions.signatures = c.functions.signatures := by
  cases h : c.current with
  | nowhere =>
    rw [absorbed_nowhere c h]
    exact ⟨rfl, rfl, rfl⟩
  | entry key =>
    rw [absorbed_entry c h]
    exact ⟨rfl, rfl, FunctionTable.signatures_modify _ _ fun f => f.signature_foldl_note fs⟩
  | detached f =>
    rw [absorbed_detached c h]
    exact ⟨rfl, rfl, rfl⟩

end Checker

/-! ## Steps -/

namespace CheckM

variable {α β : Type} {c c' : Checker}

/-- The step succeeds with the value `a` and leaves the checker `c'`, which has no diagnostic. -/
def Passes (m : CheckM α) (c : Checker) (a : α) (c' : Checker) : Prop :=
  m.run c = (.ok a, c') ∧ c'.sink = .empty

/-- Whether a step only adds to the diagnostics. -/
def Grows (m : CheckM α) : Prop :=
  ∀ c, ∃ ds, (m.run c).2.sink = c.sink.extend ds

theorem run_bind (m : CheckM α) (f : α → CheckM β) (c : Checker) :
    (m >>= f).run c =
      match m.run c with
      | (.ok a, c₁) => (f a).run c₁
      | (.error e, c₁) => (.error e, c₁) := by
  rw [ExceptT.run_bind]
  show StateT.bind m.run _ c = _
  unfold StateT.bind
  rcases m.run c with ⟨r, c₁⟩
  cases r <;> rfl

theorem Grows.bind {m : CheckM α} {f : α → CheckM β} (hm : m.Grows) (hf : ∀ a, (f a).Grows) :
    (m >>= f).Grows := by
  intro c
  obtain ⟨ds, h⟩ := hm c
  rw [run_bind]
  cases hr : m.run c with
  | mk r c₁ =>
    rw [hr] at h
    cases r with
    | error e => exact ⟨ds, h⟩
    | ok a =>
      obtain ⟨es, h'⟩ := hf a c₁
      exact ⟨ds ++ es, by rw [Sink.extend_append, ← h, ← h']⟩

theorem Grows.pure (a : α) : (pure a : CheckM α).Grows :=
  fun _ => ⟨[], rfl⟩

theorem Grows.throw (e : CheckError) : (throw e : CheckM α).Grows :=
  fun _ => ⟨[], rfl⟩

theorem Grows.get : (get : CheckM Checker).Grows :=
  fun _ => ⟨[], rfl⟩

theorem Grows.modify {g : Checker → Checker} (h : ∀ c, ∃ ds, (g c).sink = c.sink.extend ds) :
    (modify g : CheckM Unit).Grows :=
  h

theorem Grows.walk (w : Walk α) : (walk w).Grows :=
  fun c => ⟨_, (Checker.absorbed_frame _ (w c.env c.scopes).findings).2.1⟩

theorem Grows.setCurrent (current : Current) : (setCurrent current).Grows :=
  fun _ => ⟨[], rfl⟩

theorem Grows.sink_eq_empty {m : CheckM α} (hm : m.Grows) {r : Except CheckError α}
    (h : m.run c = (r, c')) (hc' : c'.sink = .empty) : c.sink = .empty := by
  obtain ⟨ds, hds⟩ := hm c
  rw [h, hc'] at hds
  exact (Sink.extend_eq_empty_iff.mp hds.symm).1

theorem passes_bind {m : CheckM α} {f : α → CheckM β} (hf : ∀ a, (f a).Grows) {b : β} :
    (m >>= f).Passes c b c' ↔ ∃ a c₁, m.Passes c a c₁ ∧ (f a).Passes c₁ b c' := by
  simp only [Passes, run_bind]
  constructor
  · rintro ⟨h, hsink⟩
    cases hr : m.run c with
    | mk r c₁ =>
      rw [hr] at h
      cases r with
      | error e => cases h
      | ok a => exact ⟨a, c₁, ⟨rfl, (hf a).sink_eq_empty h hsink⟩, h, hsink⟩
  · rintro ⟨a, c₁, ⟨h₁, -⟩, h, hsink⟩
    rw [h₁]
    exact ⟨h, hsink⟩

theorem run_walk {w : Walk α} {fs : List Finding} {a : α} {s' : ScopeStack}
    (h : w.Gives c.env c.scopes fs a s') :
    (walk w).run c = (.ok a, fs.foldl Checker.absorb { c with scopes := s' }) := by
  rw [Walk.Gives] at h
  show ((w c.env c.scopes).value, _) = _
  rw [h]

/-- A walk within a check passes if it passes by itself. -/
theorem passes_walk {w : Walk α} {a : α} :
    (walk w).Passes c a c' ↔
      ∃ fs s', w.Gives c.env c.scopes fs a s' ∧ fs.filterMap Finding.diagnostic? = [] ∧
        c.sink = .empty ∧ c' = fs.foldl Checker.absorb { c with scopes := s' } := by
  have hsink : ∀ (fs : List Finding) (s' : ScopeStack),
      (fs.foldl Checker.absorb { c with scopes := s' }).sink = .empty ↔
        c.sink = .empty ∧ fs.filterMap Finding.diagnostic? = [] := by
    intro fs s'
    rw [(Checker.absorbed_frame _ fs).2.1, Sink.extend_eq_empty_iff]
  constructor
  · rintro ⟨h, hc'⟩
    obtain ⟨hv, rfl⟩ := Prod.mk.inj h
    obtain ⟨hc, hfs⟩ := (hsink _ _).mp hc'
    refine ⟨_, _, ?_, hfs, hc, rfl⟩
    rw [Walk.Gives, ← hv]
  · rintro ⟨fs, s', h, hfs, hc, rfl⟩
    exact ⟨run_walk h, (hsink fs s').mpr ⟨hc, hfs⟩⟩

theorem run_get_bind (f : Checker → CheckM β) (c : Checker) :
    (get >>= f : CheckM β).run c = (f c).run c := rfl

theorem passes_get_bind {f : Checker → CheckM β} {b : β} :
    ((get : CheckM Checker) >>= f).Passes c b c' ↔ (f c).Passes c b c' :=
  Iff.rfl

theorem passes_modify {g : Checker → Checker} {u : Unit} :
    (modify g : CheckM Unit).Passes c u c' ↔ c' = g c ∧ (g c).sink = .empty := by
  constructor
  · rintro ⟨h, hc'⟩
    obtain ⟨-, rfl⟩ := Prod.mk.inj h
    exact ⟨rfl, hc'⟩
  · rintro ⟨rfl, hc⟩
    exact ⟨rfl, hc⟩

theorem passes_setCurrent {current : Current} {u : Unit} :
    (setCurrent current).Passes c u c' ↔ c' = { c with current } ∧ c.sink = .empty :=
  passes_modify

end CheckM

end Sema
