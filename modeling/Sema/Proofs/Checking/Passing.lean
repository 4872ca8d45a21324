import Sema.Checking.Walk
import Sema.Proofs.Checking.Frames

/-!
# Walks that succeed and walks that pass

A walk gives a value if it succeeds (`Walk.Gives`), and passes if it moreover reports no violation
(`Walk.Passes`). Both are read off a walk step by step: one walk after another gives or passes just
if both do (`gives_bind`, `passes_bind`), and each elementary walk has its law.

A walk leaves the scopes as they are (`Still`), or changes the innermost frame only (`Framed`). So a
walk in a frame of its own (`enclosed`) leaves no trace in the scopes (`gives_enclosed_iff`). A
property that holds of the elementary walks and is kept from one walk to the next (`ClosedAt`,
`ClosedInFramesAt`) holds of every walk that is put together from them. It may depend on the places
of what the walks find; else it is closed wherever they find it (`Closed`, `ClosedInFrames`).
-/

namespace Sema

def Finding.diagnostic? : Finding → Option Diagnostic
  | .violation v loc => some (v.located loc)
  | _ => none

def Finding.global? : Finding → Option Symbol
  | .globalVar symbol => some symbol
  | _ => none

/-- Whether a finding has a place in the program: a violation of the program as a whole has none. -/
def Finding.Placed : Finding → Prop
  | .violation .missingMain _ | .violation (.severalMains _) _ => False
  | _ => True

/-- Whether a finding can be made in the walk over a declaration: besides the program as a whole, a
function whose name is taken and one without a `return` are reported apart from such walks. -/
def Finding.OfWalk : Finding → Prop
  | .violation .missingMain _ | .violation (.severalMains _) _
  | .violation (.duplicateFunction _) _ | .violation (.missingReturn _ _) _ => False
  | _ => True

/-- Whether the place that a finding names, if any, is one that `L` admits. -/
def Finding.At (L : Location → Prop) : Finding → Prop
  | .violation _ loc => L loc
  | .control record => ∃ loc, L loc ∧ record.startLine = loc.line ∧ record.endLine = loc.lastLine
  | _ => True

theorem Finding.OfWalk.placed {finding : Finding} (h : finding.OfWalk) : finding.Placed := by
  cases finding with
  | violation v loc => cases v <;> first | exact h.elim | trivial
  | _ => trivial

namespace Walk

variable {α β : Type} {env : Env} {s s' : ScopeStack} {fs : List Finding}

/-- The walk succeeds with the value `a`, leaves the scopes `s'` and finds `fs`. -/
def Gives (w : Walk α) (env : Env) (s : ScopeStack) (fs : List Finding) (a : α)
    (s' : ScopeStack) : Prop :=
  w env s = ⟨s', fs, .ok a⟩

/-- The walk succeeds and files no diagnostic. -/
def Passes (w : Walk α) (env : Env) (s : ScopeStack) (a : α) (s' : ScopeStack) : Prop :=
  ∃ fs, w.Gives env s fs a s' ∧ fs.filterMap Finding.diagnostic? = []

/-! ## Walks that succeed -/

theorem gives_iff {w : Walk α} {a : α} : w.Gives env s fs a s' ↔ w env s = ⟨s', fs, .ok a⟩ :=
  Iff.rfl

theorem gives_bind {w : Walk α} {f : α → Walk β} {b : β} :
    (w >>= f).Gives env s fs b s' ↔
      ∃ fs₁ a s₁ fs₂, w.Gives env s fs₁ a s₁ ∧ (f a).Gives env s₁ fs₂ b s' ∧ fs = fs₁ ++ fs₂ := by
  constructor
  · intro h
    cases hw : (w env s).value with
    | error e =>
      rw [gives_iff, bind_apply_of_error hw] at h
      cases h
    | ok a =>
      rw [gives_iff, bind_apply_of_ok hw] at h
      injection h with hs hfs hb
      refine ⟨(w env s).findings, a, (w env s).scopes, _, ?_, ?_, hfs.symm⟩
      · rw [gives_iff, ← hw]
      · rw [gives_iff, ← hs, ← hb]
  · rintro ⟨fs₁, a, s₁, fs₂, hw, hf, rfl⟩
    rw [gives_iff] at hw hf ⊢
    have hv : (w env s).value = .ok a := by rw [hw]
    rw [bind_apply_of_ok hv, hw, hf]

theorem gives_read {g : Env → ScopeStack → α} {a : α} :
    Gives (fun env s => ⟨s, [], .ok (g env s)⟩) env s fs a s' ↔ g env s = a ∧ s = s' ∧ fs = [] := by
  simp only [Gives, Outcome.mk.injEq, Except.ok.injEq]
  constructor
  · rintro ⟨rfl, rfl, rfl⟩
    exact ⟨rfl, rfl, rfl⟩
  · rintro ⟨rfl, rfl, rfl⟩
    exact ⟨rfl, rfl, rfl⟩

theorem gives_pure {a b : α} :
    (pure a : Walk α).Gives env s fs b s' ↔ a = b ∧ s = s' ∧ fs = [] :=
  gives_read

theorem gives_caller {o : Option Caller} :
    caller.Gives env s fs o s' ↔ env.caller = o ∧ s = s' ∧ fs = [] :=
  gives_read

theorem gives_find {finding : Finding} {u : Unit} :
    (find finding).Gives env s fs u s' ↔ s = s' ∧ fs = [finding] := by
  simp only [gives_iff, find, Outcome.mk.injEq, and_true, eq_comm]

theorem not_gives_fail {e : CheckError} {a : α} : ¬(fail e : Walk α).Gives env s fs a s' := by
  intro h
  simp [gives_iff, fail] at h

theorem gives_push {u : Unit} : push.Gives env s fs u s' ↔ s' = s.push ∧ fs = [] := by
  simp only [gives_iff, push, Outcome.mk.injEq, and_true, eq_comm]

theorem gives_pop {u : Unit} : pop.Gives env s fs u s' ↔ s.pop = .ok s' ∧ fs = [] := by
  simp only [gives_iff, pop]
  cases h : s.pop with
  | ok t => simp only [Outcome.mk.injEq, and_true, Except.ok.injEq, eq_comm]
  | error e => simp

theorem gives_declare {symbol : Symbol} {b : Bool} :
    (declare symbol).Gives env s fs b s' ↔
      ((s.declare symbol.name symbol = .ok s' ∧ b = true) ∨
        ((∃ e, s.declare symbol.name symbol = .error e) ∧ s' = s ∧ b = false)) ∧ fs = [] := by
  simp only [gives_iff, declare]
  cases h : s.declare symbol.name symbol with
  | ok t => simp [and_assoc, and_left_comm, and_comm, eq_comm]
  | error e => simp [and_assoc, and_left_comm, and_comm, eq_comm]

/-! ## Walks that pass -/

theorem passes_bind {w : Walk α} {f : α → Walk β} {b : β} :
    (w >>= f).Passes env s b s' ↔ ∃ a s₁, w.Passes env s a s₁ ∧ (f a).Passes env s₁ b s' := by
  constructor
  · rintro ⟨fs, h, hfs⟩
    obtain ⟨fs₁, a, s₁, fs₂, hw, hf, rfl⟩ := gives_bind.mp h
    rw [List.filterMap_append, List.append_eq_nil_iff] at hfs
    exact ⟨a, s₁, ⟨fs₁, hw, hfs.1⟩, ⟨fs₂, hf, hfs.2⟩⟩
  · rintro ⟨a, s₁, ⟨fs₁, hw, h₁⟩, ⟨fs₂, hf, h₂⟩⟩
    refine ⟨fs₁ ++ fs₂, gives_bind.mpr ⟨fs₁, a, s₁, fs₂, hw, hf, rfl⟩, ?_⟩
    rw [List.filterMap_append, h₁, h₂, List.append_nil]

theorem passes_read {g : Env → ScopeStack → α} {a : α} :
    Passes (fun env s => ⟨s, [], .ok (g env s)⟩) env s a s' ↔ g env s = a ∧ s = s' := by
  constructor
  · rintro ⟨fs, h, -⟩
    obtain ⟨ha, hs, -⟩ := gives_read.mp h
    exact ⟨ha, hs⟩
  · rintro ⟨ha, hs⟩
    exact ⟨[], gives_read.mpr ⟨ha, hs, rfl⟩, rfl⟩

theorem passes_pure {a b : α} : (pure a : Walk α).Passes env s b s' ↔ a = b ∧ s = s' :=
  passes_read

theorem passes_discard {w : Walk α} {u : Unit} :
    (w >>= fun _ => pure ()).Passes env s u s' ↔ ∃ a, w.Passes env s a s' := by
  simp only [passes_bind, passes_pure, true_and, exists_eq_right]

theorem passes_read_bind {g : Env → ScopeStack → α} {f : α → Walk β} {b : β} :
    Passes (Walk.bind (fun env s => ⟨s, [], .ok (g env s)⟩) f) env s b s' ↔
      (f (g env s)).Passes env s b s' := by
  refine Iff.trans passes_bind ?_
  constructor
  · rintro ⟨a, s₁, h, hf⟩
    obtain ⟨rfl, rfl⟩ := passes_read.mp h
    exact hf
  · intro hf
    exact ⟨_, s, passes_read.mpr ⟨rfl, rfl⟩, hf⟩

theorem passes_callee?_bind {name : String} {f : Option Signature → Walk β} {b : β} :
    (callee? name >>= f).Passes env s b s' ↔ (f (env.callee? name)).Passes env s b s' :=
  passes_read_bind

theorem passes_caller_bind {f : Option Caller → Walk β} {b : β} :
    (caller >>= f).Passes env s b s' ↔ (f env.caller).Passes env s b s' :=
  passes_read_bind

theorem passes_resolve_bind {name : String} {f : Option Symbol → Walk β} {b : β} :
    (resolve name >>= f).Passes env s b s' ↔ (f (s.resolve name)).Passes env s b s' :=
  passes_read_bind

theorem passes_find {finding : Finding} {u : Unit} :
    (find finding).Passes env s u s' ↔ finding.diagnostic? = none ∧ s = s' := by
  constructor
  · rintro ⟨fs, h, hfs⟩
    obtain ⟨hs, rfl⟩ := gives_find.mp h
    cases hd : finding.diagnostic? with
    | none => exact ⟨rfl, hs⟩
    | some d => simp [hd] at hfs
  · rintro ⟨hd, hs⟩
    exact ⟨[finding], gives_find.mpr ⟨hs, rfl⟩, by simp [hd]⟩

theorem passes_find_bind {finding : Finding} {f : Unit → Walk β} {b : β} :
    (find finding >>= f).Passes env s b s' ↔
      finding.diagnostic? = none ∧ (f ()).Passes env s b s' := by
  simp only [passes_bind, passes_find, and_assoc, exists_and_left, exists_eq_left']
  exact and_congr_right fun _ => ⟨fun ⟨_, h⟩ => h, fun h => ⟨(), h⟩⟩

theorem not_passes_report {v : Violation} {loc : Location} {u : Unit} :
    ¬(report v loc).Passes env s u s' := by
  intro h
  have hd := (passes_find.mp h).1
  simp [Finding.diagnostic?] at hd

theorem passes_reportIf {broken : Bool} {v : Violation} {loc : Location} {u : Unit} :
    (reportIf broken v loc).Passes env s u s' ↔ broken = false ∧ s = s' := by
  cases broken with
  | false => simp [reportIf, passes_pure]
  | true => simp [reportIf, not_passes_report]

theorem not_passes_report_bind {v : Violation} {loc : Location} {f : Unit → Walk β} {b : β} :
    ¬(report v loc >>= f).Passes env s b s' := by
  simp only [passes_bind, not_passes_report, false_and, exists_false, not_false_eq_true]

theorem passes_reportIf_bind {broken : Bool} {v : Violation} {loc : Location} {f : Unit → Walk β}
    {b : β} :
    (reportIf broken v loc >>= f).Passes env s b s' ↔
      broken = false ∧ (f ()).Passes env s b s' := by
  simp only [passes_bind, passes_reportIf, and_assoc, exists_and_left, exists_eq_left']
  exact and_congr_right fun _ => ⟨fun ⟨_, h⟩ => h, fun h => ⟨(), h⟩⟩

theorem not_passes_fail {e : CheckError} {a : α} : ¬(fail e : Walk α).Passes env s a s' := by
  rintro ⟨fs, h, -⟩
  exact not_gives_fail h

theorem passes_push {u : Unit} : push.Passes env s u s' ↔ s' = s.push := by
  constructor
  · rintro ⟨fs, h, -⟩
    exact (gives_push.mp h).1
  · intro h
    exact ⟨[], gives_push.mpr ⟨h, rfl⟩, rfl⟩

theorem passes_declare_fresh {symbol : Symbol} :
    (declare symbol).Passes env s true s' ↔ s.declare symbol.name symbol = .ok s' := by
  constructor
  · rintro ⟨fs, h, -⟩
    simpa using (gives_declare.mp h).1
  · intro h
    exact ⟨[], gives_declare.mpr ⟨.inl ⟨h, rfl⟩, rfl⟩, rfl⟩

theorem passes_resolveType {name : Option String} {loc : Location} {τ : Ty} :
    (resolveType name loc).Passes env s τ s' ↔ Ty.resolve name = .ok τ ∧ s = s' := by
  unfold resolveType
  cases Ty.resolve name with
  | ok σ => simp [passes_pure]
  | error e => simp only [not_passes_report_bind, reduceCtorEq, false_and]

theorem passes_resolveType_bind {name : Option String} {loc : Location} {f : Ty → Walk β} {b : β} :
    (resolveType name loc >>= f).Passes env s b s' ↔
      ∃ τ, Ty.resolve name = .ok τ ∧ (f τ).Passes env s b s' := by
  simp only [passes_bind, passes_resolveType, and_assoc, exists_and_left, exists_eq_left']

/-! ## Walks and frames -/

/-- Whether a walk leaves the scopes as they are. -/
def Still (w : Walk α) : Prop :=
  ∀ env s fs a s', w.Gives env s fs a s' → s' = s

/-- Whether a walk changes no frame but the innermost, and binds no name twice there. -/
def Framed (w : Walk α) : Prop :=
  ∀ env s fs a s', w.Gives env s fs a s' →
    s'.frames.tail = s.frames.tail ∧ (s.Distinct → s'.Distinct)

def Completes (w : Walk α) : Prop :=
  ∀ env s, ∃ fs a s', w.Gives env s fs a s'

/-- Closing under what walks over expressions are made of, with reports at places that `L`
admits. -/
structure ClosedAt (L : Location → Prop) (P : ∀ {α : Type}, Walk α → Prop) : Prop where
  pure : ∀ {α : Type} (a : α), P (pure a : Walk α)
  bind : ∀ {α β : Type} {w : Walk α} {f : α → Walk β}, P w → (∀ a, P (f a)) → P (w >>= f)
  callee? : ∀ name, P (callee? name)
  caller : P caller
  resolve : ∀ name, P (resolve name)
  report : ∀ v loc (_ : L loc := by trivial)
    (_ : (Finding.violation v loc).OfWalk := by trivial), P (report v loc)
  selfCall : P (find .selfCall)

/-- Closing under what walks over expressions are made of. -/
abbrev Closed (P : ∀ {α : Type}, Walk α → Prop) : Prop :=
  ClosedAt (fun _ => True) P

theorem Still.framed {w : Walk α} (h : w.Still) : w.Framed := by
  intro env s fs a s' hw
  rw [h env s fs a s' hw]
  exact ⟨rfl, id⟩

theorem Still.bind {w : Walk α} {f : α → Walk β} (hw : w.Still) (hf : ∀ a, (f a).Still) :
    (w >>= f).Still := by
  intro env s fs b s' h
  obtain ⟨fs₁, a, s₁, fs₂, h₁, h₂, -⟩ := gives_bind.mp h
  rw [hf a env s₁ fs₂ b s' h₂, hw env s fs₁ a s₁ h₁]

theorem Framed.bind {w : Walk α} {f : α → Walk β} (hw : w.Framed) (hf : ∀ a, (f a).Framed) :
    (w >>= f).Framed := by
  intro env s fs b s' h
  obtain ⟨fs₁, a, s₁, fs₂, h₁, h₂, -⟩ := gives_bind.mp h
  obtain ⟨ht₁, hd₁⟩ := hw env s fs₁ a s₁ h₁
  obtain ⟨ht₂, hd₂⟩ := hf a env s₁ fs₂ b s' h₂
  exact ⟨ht₂.trans ht₁, hd₂ ∘ hd₁⟩

theorem Completes.bind {w : Walk α} {f : α → Walk β} (hw : w.Completes)
    (hf : ∀ a, (f a).Completes) : (w >>= f).Completes := by
  intro env s
  obtain ⟨fs₁, a, s₁, h₁⟩ := hw env s
  obtain ⟨fs₂, b, s₂, h₂⟩ := hf a env s₁
  exact ⟨fs₁ ++ fs₂, b, s₂, gives_bind.mpr ⟨fs₁, a, s₁, fs₂, h₁, h₂, rfl⟩⟩

theorem Still.eq_of_passes {w : Walk α} (hw : w.Still) {a : α} (h : w.Passes env s a s') :
    s' = s := by
  obtain ⟨fs, h, -⟩ := h
  exact hw env s fs a s' h

theorem Framed.distinct_of_passes {w : Walk α} (hw : w.Framed) {a : α} (hs : s.Distinct)
    (h : w.Passes env s a s') : s'.Distinct := by
  obtain ⟨fs, h, -⟩ := h
  exact (hw env s fs a s' h).2 hs

theorem Framed.tail_of_passes {w : Walk α} (hw : w.Framed) {a : α} (h : w.Passes env s a s') :
    s'.frames.tail = s.frames.tail := by
  obtain ⟨fs, h, -⟩ := h
  exact (hw env s fs a s' h).1

theorem still_read {g : Env → ScopeStack → α} :
    Still (fun env s => ⟨s, [], .ok (g env s)⟩) := by
  intro env s fs a s' h
  exact (gives_read.mp h).2.1.symm

theorem still_find (finding : Finding) : (find finding).Still := by
  intro env s fs u s' h
  exact (gives_find.mp h).1.symm

theorem still_fail (e : CheckError) : (fail e : Walk α).Still :=
  fun _ _ _ _ _ h => absurd h not_gives_fail

theorem closed_still : Closed Still where
  pure _ := still_read
  bind := Still.bind
  callee? _ := still_read
  caller := still_read
  resolve _ := still_read
  report _ _ _ _ := still_find _
  selfCall := still_find _

theorem closed_framed : Closed Framed where
  pure _ := still_read.framed
  bind := Framed.bind
  callee? _ := still_read.framed
  caller := still_read.framed
  resolve _ := still_read.framed
  report _ _ _ _ := (still_find _).framed
  selfCall := (still_find _).framed

theorem completes_find (finding : Finding) : (find finding).Completes :=
  fun _ s => ⟨[finding], (), s, rfl⟩

theorem completes_reportIf (broken : Bool) (v : Violation) (loc : Location) :
    (reportIf broken v loc).Completes := by
  cases broken with
  | false => exact fun _ s => ⟨[], (), s, rfl⟩
  | true => exact completes_find _

theorem closed_completes : Closed Completes where
  pure a := fun _ s => ⟨[], a, s, rfl⟩
  bind := Completes.bind
  callee? name := fun env s => ⟨[], env.callee? name, s, rfl⟩
  caller := fun env s => ⟨[], env.caller, s, rfl⟩
  resolve name := fun _ s => ⟨[], s.resolve name, s, rfl⟩
  report _ _ _ _ := completes_find _
  selfCall := completes_find _

namespace ClosedAt

variable {L : Location → Prop} {P : ∀ {α : Type}, Walk α → Prop}

theorem reportIf (hP : ClosedAt L P) (broken : Bool) (v : Violation) (loc : Location)
    (hloc : L loc := by trivial) (hv : (Finding.violation v loc).OfWalk := by trivial) :
    P (reportIf broken v loc) := by
  cases broken with
  | false => exact hP.pure ()
  | true => exact hP.report v loc hloc hv

theorem resolveType (hP : ClosedAt L P) (name : Option String) (loc : Location)
    (hloc : L loc := by trivial) : P (resolveType name loc) := by
  unfold Walk.resolveType
  cases Ty.resolve name with
  | ok σ => exact hP.pure σ
  | error e => exact hP.bind (hP.report _ _ hloc) fun _ => hP.pure _

end ClosedAt

/-! ### Walks in a frame of their own -/

/-- A walk in a frame of its own. -/
def enclosed (w : Walk Unit) : Walk Unit := do
  push
  w
  pop

/-- Closing under what walks over statements are made of, with findings at places that `L`
admits. -/
structure ClosedInFramesAt (L : Location → Prop) (P : ∀ {α : Type}, Walk α → Prop) : Prop
    extends ClosedAt L P where
  find : ∀ finding (_ : finding.At L := by trivial) (_ : finding.OfWalk := by trivial)
    (_ : finding.global? = none := by rfl), P (find finding)
  declare : ∀ symbol, P (declare symbol)
  enclosed : ∀ {w : Walk Unit}, P w → P (enclosed w)

/-- Closing under what walks over statements are made of. -/
abbrev ClosedInFrames (P : ∀ {α : Type}, Walk α → Prop) : Prop :=
  ClosedInFramesAt (fun _ => True) P

/-- Closing the frame brings back the scopes from before it was opened. -/
theorem gives_enclosed_iff {w : Walk Unit} (hw : w.Framed) {u : Unit} :
    (enclosed w).Gives env s fs u s' ↔ (∃ s₁, w.Gives env s.push fs () s₁) ∧ s' = s := by
  have hpop : ∀ {fs₁ s₁}, w.Gives env s.push fs₁ () s₁ → s₁.pop = .ok s := fun h =>
    ScopeStack.pop_of_tail_frames (hw env s.push _ () _ h).1
  constructor
  · intro h
    obtain ⟨_, _, _, _, hopen, hrest, rfl⟩ := gives_bind.mp h
    obtain ⟨rfl, rfl⟩ := gives_push.mp hopen
    obtain ⟨fs₁, _, s₁, _, hwalk, hclose, rfl⟩ := gives_bind.mp hrest
    obtain ⟨hs', rfl⟩ := gives_pop.mp hclose
    rw [hpop hwalk, Except.ok.injEq] at hs'
    exact ⟨⟨s₁, by simpa using hwalk⟩, hs'.symm⟩
  · rintro ⟨⟨s₁, h⟩, rfl⟩
    refine gives_bind.mpr ⟨[], (), s'.push, fs, gives_push.mpr ⟨rfl, rfl⟩, ?_, rfl⟩
    exact gives_bind.mpr ⟨fs, (), s₁, [], h, gives_pop.mpr ⟨hpop h, rfl⟩, by simp⟩

theorem passes_enclosed_iff {w : Walk Unit} (hw : w.Framed) {u : Unit} :
    (enclosed w).Passes env s u s' ↔ (∃ s₁, w.Passes env s.push () s₁) ∧ s' = s := by
  constructor
  · rintro ⟨fs, h, hfs⟩
    obtain ⟨⟨s₁, h⟩, hs⟩ := (gives_enclosed_iff hw).mp h
    exact ⟨⟨s₁, fs, h, hfs⟩, hs⟩
  · rintro ⟨⟨s₁, fs, h, hfs⟩, hs⟩
    exact ⟨fs, (gives_enclosed_iff hw).mpr ⟨⟨s₁, h⟩, hs⟩, hfs⟩

theorem Framed.still_enclosed {w : Walk Unit} (hw : w.Framed) : (enclosed w).Still := by
  intro env s fs u s' h
  exact ((gives_enclosed_iff hw).mp h).2

theorem framed_declare (symbol : Symbol) : (declare symbol).Framed := by
  intro env s fs b s' h
  obtain ⟨⟨hd, -⟩ | ⟨-, rfl, -⟩, -⟩ := gives_declare.mp h
  · exact ⟨ScopeStack.tail_frames_declare hd, fun hs => ScopeStack.distinct_declare hs hd⟩
  · exact ⟨rfl, id⟩

theorem completes_declare (symbol : Symbol) : (declare symbol).Completes := by
  intro env s
  cases h : s.declare symbol.name symbol with
  | ok t => exact ⟨[], true, t, gives_declare.mpr ⟨.inl ⟨h, rfl⟩, rfl⟩⟩
  | error e => exact ⟨[], false, s, gives_declare.mpr ⟨.inr ⟨⟨e, h⟩, rfl, rfl⟩, rfl⟩⟩

theorem closedInFrames_framed : ClosedInFrames Framed where
  toClosedAt := closed_framed
  find finding _ _ _ := (still_find finding).framed
  declare := framed_declare
  enclosed hw := hw.still_enclosed.framed

/-- Success is kept in frames together with the care for the outer ones: the frame that is closed
has to be the one that was opened. -/
theorem closedInFrames_completes : ClosedInFrames fun w => Framed w ∧ Completes w where
  pure a := ⟨closed_framed.pure a, closed_completes.pure a⟩
  bind hw hf := ⟨hw.1.bind fun a => (hf a).1, hw.2.bind fun a => (hf a).2⟩
  callee? name := ⟨closed_framed.callee? name, closed_completes.callee? name⟩
  caller := ⟨closed_framed.caller, closed_completes.caller⟩
  resolve name := ⟨closed_framed.resolve name, closed_completes.resolve name⟩
  report v loc hloc hv :=
    ⟨closed_framed.report v loc hloc hv, closed_completes.report v loc hloc hv⟩
  selfCall := ⟨closed_framed.selfCall, closed_completes.selfCall⟩
  find finding _ _ _ := ⟨(still_find finding).framed, completes_find finding⟩
  declare symbol := ⟨framed_declare symbol, completes_declare symbol⟩
  enclosed hw := by
    refine ⟨hw.1.still_enclosed.framed, fun env s => ?_⟩
    obtain ⟨fs, _, s₁, h⟩ := hw.2 env s.push
    exact ⟨fs, (), s, (gives_enclosed_iff hw.1).mpr ⟨⟨s₁, h⟩, rfl⟩⟩

end Walk

end Sema
