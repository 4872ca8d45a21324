import Sema.Proofs.Checking.Records
import Sema.Proofs.Checking.Summary
import Sema.Proofs.Diagnostics.Texts

/-!
# Reports with the same text

Whatever a check files reports a violation, with its message and the line where it is
(`Program.ofViolation_of_mem_filed`). The written form of a violation shows neither its code nor its
column, and the names in it may be any texts; but it shows the line, and its message shows the code.
So a sink that drops a diagnostic whose written form it has already loses no violation
(`ofProgram_keeps_violations`).
-/

namespace Sema

/-! ## Diagnostics of violations -/

/-- The diagnostic reports a violation, of the program as a whole or at a place. -/
def Diagnostic.OfViolation (d : Diagnostic) : Prop :=
  ∃ v : Violation, d = v.global ∨ ∃ loc, d = v.located loc

/-- The two diagnostics report the same, but for the column. -/
structure Diagnostic.SameReport (d d' : Diagnostic) : Prop where
  code : d.code = d'.code
  line : d.line = d'.line
  message : d.message = d'.message

namespace Diagnostic.OfViolation

theorem located (v : Violation) (loc : Location) : (v.located loc).OfViolation :=
  ⟨v, .inr ⟨loc, rfl⟩⟩

theorem global (v : Violation) : v.global.OfViolation :=
  ⟨v, .inl rfl⟩

theorem of_finding {finding : Finding} {d : Diagnostic} (h : finding.diagnostic? = some d) :
    d.OfViolation := by
  cases finding with
  | violation v loc =>
    obtain rfl := Option.some.inj h
    exact located v loc
  | _ => cases h

theorem same_of_render_eq {d d' : Diagnostic} (hd : d.OfViolation) (hd' : d'.OfViolation)
    (h : d.render = d'.render) : d.SameReport d' := by
  obtain ⟨v, rfl | ⟨loc, rfl⟩⟩ := hd
  · obtain ⟨v', rfl | ⟨loc', rfl⟩⟩ := hd'
    · rw [Violation.render_global, Violation.render_global, String.append_right_inj] at h
      exact ⟨Violation.code_eq_of_message_eq h, rfl, h⟩
    · exact absurd h.symm (v'.render_located_ne v loc')
  · obtain ⟨v', rfl | ⟨loc', rfl⟩⟩ := hd'
    · exact absurd h (v.render_located_ne v' loc)
    · obtain ⟨hline, hmessage⟩ := Violation.of_render_located_eq h
      exact ⟨Violation.code_eq_of_message_eq hmessage, congrArg some hline, hmessage⟩

end Diagnostic.OfViolation

/-! ## What is filed -/

namespace Recorded

variable {α β : Type}

/-- Whether a step files diagnostics of violations only. -/
def FilesViolations (m : Recorded α) : Prop :=
  ∀ c, ∀ d ∈ m.filed c, d.OfViolation

theorem FilesViolations.quiet (m : CheckM α) (h : ∀ c, (m.run c).2.sink = c.sink) :
    (quiet m h).FilesViolations := by
  intro c d hd
  cases hd

theorem FilesViolations.walk (w : Walk α) : (walk w).FilesViolations := by
  intro c d hd
  obtain ⟨finding, -, hfinding⟩ := List.mem_filterMap.mp hd
  exact .of_finding hfinding

theorem FilesViolations.bind {m : Recorded α} {f : α → Recorded β} (hm : m.FilesViolations)
    (hf : ∀ a, (f a).FilesViolations) : (m >>= f).FilesViolations := by
  intro c d hd
  rcases List.mem_append.mp hd with hd | hd
  · exact hm c d hd
  · unfold filedAfter at hd
    split at hd
    · exact hf _ _ d hd
    · cases hd

theorem filesViolations_registerFunction (f : FunctionDef) :
    (registerFunction f).FilesViolations := by
  refine (FilesViolations.walk _).bind fun _ => (FilesViolations.walk _).bind fun _ =>
    (FilesViolations.quiet _ _).bind fun _ => ?_
  split
  · exact .walk _
  · exact .quiet _ _

theorem filesViolations_registerFunctions (fs : List FunctionDef) :
    (registerFunctions fs).FilesViolations := by
  induction fs with
  | nil => exact .quiet _ _
  | cons f fs ih => exact (filesViolations_registerFunction f).bind fun _ => ih

theorem filesViolations_checkReturns (f : FunctionDef) : (checkReturns f).FilesViolations := by
  refine (FilesViolations.quiet _ _).bind fun c => ?_
  cases c.function? with
  | none => exact .quiet _ _
  | some symbol => exact .walk _

theorem filesViolations_checkFunction (f : FunctionDef) (registered : Bool) :
    (checkFunction f registered).FilesViolations := by
  have hrest := (FilesViolations.walk (Checking.checkBody f)).bind fun _ =>
    (filesViolations_checkReturns f).bind fun _ => (FilesViolations.walk Walk.pop).bind fun _ =>
      FilesViolations.quiet (CheckM.setCurrent .nowhere) fun _ => rfl
  cases registered with
  | true => exact (FilesViolations.quiet _ _).bind fun _ => hrest
  | false =>
    exact (FilesViolations.walk _).bind fun _ => (FilesViolations.quiet _ _).bind fun _ => hrest

theorem filesViolations_checkDecls (taken : List String) (ds : List Decl) :
    (checkDecls taken ds).FilesViolations := by
  induction ds generalizing taken with
  | nil => exact .quiet _ _
  | cons d ds ih =>
    cases d with
    | func f => exact (filesViolations_checkFunction f _).bind fun _ => ih _
    | var d => exact (FilesViolations.walk _).bind fun _ => ih _
    | unsupported => exact .quiet _ _

theorem filesViolations_checkMain : checkMain.FilesViolations := by
  intro c d hd
  rcases h : (c.functions.functions.filter FunctionSymbol.isMain).length with _ | _ | n <;>
    simp only [checkMain, h, mainFiled, List.mem_singleton, List.not_mem_nil] at hd
  · exact hd ▸ .global _
  · exact hd ▸ .global _

end Recorded

namespace Program

variable {p : Program} {d d' : Diagnostic}

/-- Whatever the check of a program files reports a violation. -/
theorem ofViolation_of_mem_filed (h : d ∈ p.filed) : d.OfViolation :=
  (Recorded.FilesViolations.quiet _ _).bind (fun _ =>
    (Recorded.filesViolations_registerFunctions _).bind fun _ =>
      (Recorded.filesViolations_checkDecls _ _).bind fun _ => Recorded.filesViolations_checkMain)
    Checker.empty d h

theorem diagnostics_of_ofProgram {checked : Checked} (hp : Checked.ofProgram p = .ok checked) :
    checked.diagnostics = (Sink.empty.extend p.filed).items := by
  have hsink := (Recorded.checkProgram p).sink_run Checker.empty
  rw [Recorded.step_checkProgram] at hsink
  rw [Checked.ofProgram] at hp
  split at hp
  · next c hrun =>
    rw [hrun] at hsink
    cases hp
    exact congrArg Sink.items hsink
  · cases hp

end Program

/-- Of what a check files, diagnostics with the same text have the same code, line and message. So
every violation that is found is among the diagnostics of the result, with its code, its line and
its message. -/
theorem ofProgram_keeps_violations {p : Program} {checked : Checked}
    (hp : Checked.ofProgram p = .ok checked) :
    (Recorded.checkProgram p).step = Checking.checkProgram p ∧
      (∀ d ∈ p.filed, ∀ d' ∈ p.filed, d.render = d'.render → d.SameReport d') ∧
      ∀ d ∈ p.filed, ∃ d' ∈ checked.diagnostics, d'.SameReport d := by
  have hsame : ∀ d ∈ p.filed, ∀ d' ∈ p.filed, d.render = d'.render → d.SameReport d' :=
    fun d hd d' hd' => (p.ofViolation_of_mem_filed hd).same_of_render_eq
      (p.ofViolation_of_mem_filed hd')
  refine ⟨Recorded.step_checkProgram p, hsame, fun d hd => ?_⟩
  have htext : d.render ∈ (Sink.empty.extend p.filed).items.map Diagnostic.render :=
    Sink.mem_texts_iff.mpr (List.mem_map_of_mem hd)
  obtain ⟨d', hd', hrender⟩ := List.mem_map.mp htext
  rw [Program.diagnostics_of_ofProgram hp]
  exact ⟨d', hd', hsame d' (Sink.mem_of_mem_items hd') d hd hrender⟩

namespace Diving

/-- In a program where functions are defined twice, each violation is reported. -/
theorem program_keeps_violations :
    ∃ checked, Checked.ofProgram (program [entry, dive, again, entry]) = .ok checked ∧
      (∀ d ∈ (program [entry, dive, again, entry]).filed,
        ∀ d' ∈ (program [entry, dive, again, entry]).filed,
          d.render = d'.render → d.SameReport d') ∧
      ∀ d ∈ (program [entry, dive, again, entry]).filed,
        ∃ d' ∈ checked.diagnostics, d'.SameReport d := by
  have hok : (Checked.ofProgram (program [entry, dive, again, entry])).toOption.isSome = true := by
    decide +kernel
  cases hp : Checked.ofProgram (program [entry, dive, again, entry]) with
  | error e =>
    rw [hp] at hok
    cases hok
  | ok checked => exact ⟨checked, rfl, (ofProgram_keeps_violations hp).2⟩

end Diving

end Sema
