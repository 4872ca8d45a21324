import Sema.Proofs.Analysis.Totality
import Sema.Proofs.Checking.FirstDefinitions
import Sema.Proofs.Diagnostics.Texts
import Sema.Proofs.Parsing.Reports

/-!
# The diagnostics of an analysis

An analysis shows what the parser reports, and after it what the checker reports
(`ofSource_merges`). Both keep repetitions out by themselves: the parser by the diagnostics, the
checker by their written forms. Since written forms show all of what the parser reports, and tell
the two phases apart, nothing more is left out where both are put together.

So there is nothing to report just if the source follows the grammar and the checker finds nothing
in its program, although the strict parser takes no part in an analysis.
-/

namespace Sema

/-! ## The parser -/

namespace Repair

theorem phase_of_mem_diagnostics {repair : Repair} {d : Diagnostic} (h : d ∈ repair.diagnostics) :
    d.phase = .parser := by
  cases repair with
  | closed marks pos =>
    obtain ⟨mark, -, rfl⟩ := List.mem_map.mp h
    rfl
  | _ =>
    rw [List.mem_singleton.mp h]
    rfl

theorem phase_of_mem_report {repairs : List Repair} {d : Diagnostic} (h : d ∈ report repairs) :
    d.phase = .parser := by
  rw [report_eq_firsts] at h
  obtain ⟨repair, -, hd⟩ := List.mem_flatMap.mp (sublist_firsts.subset h)
  exact phase_of_mem_diagnostics hd

theorem nodup_texts_report (repairs : List Repair) :
    ((report repairs).map Diagnostic.render).Nodup := by
  have hnodup : (report repairs).Nodup := by
    have hkeys : ((firsts id [] (repairs.flatMap diagnostics)).map id).Nodup := nodup_map_firsts
    rwa [List.map_id, ← report_eq_firsts] at hkeys
  rw [List.Nodup, List.pairwise_map]
  refine hnodup.imp_of_mem fun hd _ hne hrender => ?_
  exact hne (Diagnostic.eq_of_render_eq (phase_of_mem_report hd) hrender)

end Repair

/-! ## The checker -/

theorem Violation.phase_code (v : Violation) : v.code.phase = .semantic := by
  cases v <;> rfl

theorem phase_of_mem_checked {p : Program} {checked : Checked}
    (h : Checked.ofProgram p = .ok checked) {d : Diagnostic} (hd : d ∈ checked.diagnostics) :
    d.phase = .semantic := by
  obtain ⟨hwalks, rfl⟩ := ofProgram_eq_ok_iff.mp h
  rcases Program.placed_reports hwalks (Sink.mem_of_mem_items hd) with ⟨v, loc, -, rfl⟩ | hmain
  · exact v.phase_code
  · rw [(Program.mem_mainReports.mp hmain).2]
    rfl

theorem nodup_texts_checked {p : Program} {checked : Checked}
    (h : Checked.ofProgram p = .ok checked) :
    (checked.diagnostics.map Diagnostic.render).Nodup := by
  obtain ⟨-, rfl⟩ := ofProgram_eq_ok_iff.mp h
  rw [Program.summary, Sink.items_extend_empty]
  exact nodup_map_firsts

/-! ## Both phases -/

namespace Analysis

variable {source : List Char} {a : Analysis} {r : Parsed}

theorem ofSource_eq_ok_iff :
    ofSource source = .ok a ↔
      ∃ r checked, Parsed.ofSource source = .ok r ∧ checkedProgram r.program = .ok checked ∧
        a = ⟨tokenListing source, r.program, checked, merge r.diagnostics checked⟩ := by
  unfold ofSource
  cases hparsed : Parsed.ofSource source with
  | error e => simp
  | ok r =>
    cases hchecked : checkedProgram r.program with
    | error e => simp [hchecked]
    | ok checked => simp [hchecked, eq_comm]

theorem checkedProgram_eq_ok_iff {program : Option Program} {checked : Option Checked} :
    checkedProgram program = .ok checked ↔
      (program = none ∧ checked = none) ∨
        ∃ p c, program = some p ∧ checked = some c ∧ Checked.ofProgram p = .ok c := by
  cases program with
  | none => simp [checkedProgram, eq_comm]
  | some p =>
    unfold checkedProgram
    cases hp : Checked.ofProgram p with
    | error e => simp [hp]
    | ok c => simp [hp, eq_comm]

theorem nodup_texts {checked : Option Checked} {ds : List Diagnostic}
    (hds : (ds.map Diagnostic.render).Nodup) (hparser : ∀ d ∈ ds, d.phase = .parser)
    (hchecked : ∀ c, checked = some c → ∃ p, Checked.ofProgram p = .ok c) :
    ((ds ++ checked.elim [] (·.diagnostics)).map Diagnostic.render).Nodup := by
  cases checked with
  | none => simpa using hds
  | some c =>
    obtain ⟨p, hp⟩ := hchecked c rfl
    rw [List.map_append, List.nodup_append]
    refine ⟨hds, nodup_texts_checked hp, ?_⟩
    intro text htext text' htext' hsame
    obtain ⟨d, hd, rfl⟩ := List.mem_map.mp htext
    obtain ⟨d', hd', rfl⟩ := List.mem_map.mp htext'
    have hphase := hparser d hd
    rw [Diagnostic.eq_of_render_eq hphase hsame, phase_of_mem_checked hp hd'] at hphase
    cases hphase

theorem pairwise_phases {checked : Option Checked} {ds : List Diagnostic}
    (hparser : ∀ d ∈ ds, d.phase = .parser)
    (hchecked : ∀ c, checked = some c → ∃ p, Checked.ofProgram p = .ok c) :
    (ds ++ checked.elim [] (·.diagnostics)).Pairwise
      fun d d' => d'.phase = .parser → d.phase = .parser := by
  have hsemantic : ∀ d ∈ checked.elim [] (·.diagnostics), d.phase ≠ .parser := by
    intro d hd
    cases checked with
    | none => cases hd
    | some c =>
      obtain ⟨p, hp⟩ := hchecked c rfl
      rw [phase_of_mem_checked hp hd]
      exact nofun
  rw [List.pairwise_append]
  refine ⟨?_, ?_, fun d hd _ _ _ => hparser d hd⟩
  · exact List.pairwise_iff_getElem.mpr fun i j hi hj _ _ => hparser _ (List.getElem_mem hi)
  · exact List.pairwise_iff_getElem.mpr fun i j hi hj _ h =>
      absurd h (hsemantic _ (List.getElem_mem hj))

theorem merge_eq_append {ds : List Diagnostic} {checked : Option Checked}
    (h : ((ds ++ checked.elim [] (·.diagnostics)).map Diagnostic.render).Nodup) :
    merge ds checked = ds ++ checked.elim [] (·.diagnostics) := by
  rw [merge, ← Sink.extend_append, Sink.items_extend_empty]
  exact firsts_of_nodup h (by simp)

theorem exitCode_eq_zero_iff : a.exitCode = 0 ↔ a.diagnostics = [] := by
  unfold exitCode
  cases a.diagnostics <;> simp

theorem program_eq_none_iff (hr : Parsed.ofSource source = .ok r) :
    r.program = none ↔ (Parsing.recover (pieces source)).tree = none := by
  obtain ⟨hprogram, -⟩ := parsed_eq_ok.mp hr
  unfold Recovered.program at hprogram
  cases htree : (Parsing.recover (pieces source)).tree with
  | none =>
    rw [htree] at hprogram
    simpa using hprogram.symm
  | some tree =>
    rw [htree] at hprogram
    refine iff_of_false (fun hnone => ?_) nofun
    rw [hnone] at hprogram
    cases hread : Reading.program source tree <;>
      simp [hread, Functor.map, Except.map] at hprogram

theorem diagnostics_eq_nil_iff (hr : Parsed.ofSource source = .ok r) :
    r.diagnostics = [] ↔ ∃ p, r.program = some p ∧ Program.ofSource source = .ok p := by
  cases hstrict : Parsing.strict (pieces source) with
  | ok tree =>
    have hrecover : Parsing.recover (pieces source) = ⟨[], some tree⟩ :=
      Parsing.recoverFrom_of_strictFrom_ok hstrict
    have hnone := program_eq_none_iff hr
    rw [hrecover] at hnone
    obtain ⟨program, diagnostics⟩ := r
    simp only [parsed_of_strict_ok hstrict, hr, Except.ok.injEq, Parsed.mk.injEq]
    cases program with
    | none => cases hnone.mp rfl
    | some p => simp
  | error e =>
    obtain ⟨d, ds, hdiagnostics, -⟩ := parsed_of_strict_error hstrict hr
    simp [hdiagnostics, ofSource_of_strict_error hstrict]

/-- Neither phase reports anything just if the source follows the grammar and its program is
right. -/
theorem both_eq_nil_iff {checked : Option Checked} (hr : Parsed.ofSource source = .ok r)
    (hchecked : checkedProgram r.program = .ok checked) :
    (r.diagnostics = [] ∧ checked.elim [] (·.diagnostics) = []) ↔
      ∃ p c, Program.ofSource source = .ok p ∧ Checked.ofProgram p = .ok c ∧
        c.diagnostics = [] := by
  have hprogram := checkedProgram_eq_ok_iff.mp hchecked
  rw [diagnostics_eq_nil_iff hr]
  constructor
  · rintro ⟨⟨p, hp, hsource⟩, hnil⟩
    rcases hprogram with ⟨hnone, -⟩ | ⟨p', c, hp', rfl, hc⟩
    · rw [hp] at hnone
      cases hnone
    · rw [hp] at hp'
      cases hp'
      exact ⟨p, c, hsource, hc, hnil⟩
  · rintro ⟨p, c, hsource, hc, hnil⟩
    cases hstrict : Parsing.strict (pieces source) with
    | error e =>
      rw [ofSource_of_strict_error hstrict] at hsource
      cases hsource
    | ok tree =>
      have hparsed := (parsed_of_strict_ok hstrict p).mp hsource
      obtain rfl : r = ⟨some p, []⟩ := Except.ok.inj (hr.symm.trans hparsed)
      refine ⟨⟨p, rfl, hsource⟩, ?_⟩
      rcases hprogram with ⟨hnone, -⟩ | ⟨p', c', hp', rfl, hc'⟩
      · cases hnone
      · cases hp'
        cases hc.symm.trans hc'
        exact hnil

/-- The analysis of a source shows what the recovering parser reports and then what the checker
reports on the program of its tree: nothing is lost, no text comes twice, and no problem of the
parser comes after a semantic one. There is no check just if there is no tree, and the exit code is
zero just if the source follows the grammar and nothing is reported on its program. -/
theorem ofSource_merges (ha : ofSource source = .ok a) :
    ∃ r, Parsed.ofSource source = .ok r ∧
      (∀ p, r.program = some p →
        ∃ checked, Checked.ofProgram p = .ok checked ∧ a.checked = some checked) ∧
      a.diagnostics = r.diagnostics ++ a.checked.elim [] (·.diagnostics) ∧
      (a.diagnostics.map Diagnostic.render).Nodup ∧
      a.diagnostics.Pairwise (fun d d' => d'.phase = .parser → d.phase = .parser) ∧
      (a.checked = none ↔ (Parsing.recover (pieces source)).tree = none) ∧
      (a.exitCode = 0 ↔ ∃ p checked, Program.ofSource source = .ok p ∧
        Checked.ofProgram p = .ok checked ∧ checked.diagnostics = []) := by
  obtain ⟨r, checked, hr, hchecked, rfl⟩ := ofSource_eq_ok_iff.mp ha
  have hreport : Repair.report (Parsing.recover (pieces source)).repairs = r.diagnostics :=
    (parsed_eq_ok.mp hr).2
  have hparser : ∀ d ∈ r.diagnostics, d.phase = .parser := by
    rw [← hreport]
    exact fun d => Repair.phase_of_mem_report
  have hprogram := checkedProgram_eq_ok_iff.mp hchecked
  have hchecks : ∀ c, checked = some c → ∃ p, Checked.ofProgram p = .ok c := by
    rintro c rfl
    rcases hprogram with ⟨-, hnone⟩ | ⟨p, _, -, hc, hp⟩
    · cases hnone
    · cases hc
      exact ⟨p, hp⟩
  have hnodup := nodup_texts (hreport ▸ Repair.nodup_texts_report _) hparser hchecks
  have hmerge := merge_eq_append hnodup
  rw [exitCode_eq_zero_iff]
  simp only [hmerge, List.append_eq_nil_iff, both_eq_nil_iff hr hchecked,
    ← program_eq_none_iff hr]
  refine ⟨r, hr, fun p hp => ?_, rfl, hnodup, pairwise_phases hparser hchecks, ?_, trivial⟩
  · rcases hprogram with ⟨hnone, -⟩ | ⟨p', c, hp', rfl, hc⟩
    · rw [hp] at hnone
      cases hnone
    · rw [hp] at hp'
      cases hp'
      exact ⟨c, hc, rfl⟩
  · rcases hprogram with ⟨hnone, rfl⟩ | ⟨p, c, hp, rfl, -⟩
    · exact iff_of_true rfl hnone
    · exact iff_of_false nofun (by simp [hp])

/-- A statement that is not ended, and in the next one a name that nobody declares. -/
def unended : List Char :=
  "void main() \x7b int a = 1 a = b; \x7d".toList

theorem unended_merges :
    ∃ a r checked, ofSource unended = .ok a ∧ Parsed.ofSource unended = .ok r ∧
      a.checked = some checked ∧ a.diagnostics = r.diagnostics ++ checked.diagnostics ∧
      a.diagnostics.map (·.code) = [.syntaxError, .undeclaredIdentifier, .typeMismatch] ∧
      a.exitCode ≠ 0 := by
  have hcodes :
      ((ofSource unended).toOption.map fun a => (a.diagnostics.map (·.code), a.exitCode)) =
        some ([.syntaxError, .undeclaredIdentifier, .typeMismatch], 1) := by decide +kernel
  have htree : (Parsing.recover (pieces unended)).tree.isSome = true := by decide +kernel
  cases ha : ofSource unended with
  | error e =>
    rw [ha] at hcodes
    cases hcodes
  | ok a =>
    simp only [ha, Except.toOption, Option.map_some, Option.some.injEq, Prod.mk.injEq] at hcodes
    obtain ⟨r, hr, -, hmerge, -, -, hnone, -⟩ := ofSource_merges ha
    cases hchecked : a.checked with
    | none =>
      rw [hnone.mp hchecked] at htree
      cases htree
    | some checked =>
      rw [hchecked] at hmerge
      exact ⟨a, r, checked, rfl, hr, hchecked, hmerge, hcodes.1, by simp [hcodes.2]⟩

end Analysis

end Sema
