import Sema.Proofs.Analysis.Merging
import Sema.Proofs.Analysis.Totality
import Sema.Proofs.Checking.Showing
import Sema.Proofs.Parsing.LineRanges

/-!
# Ranges of lines in an analysis

The nodes of a program that comes out of recovery have lines of the source, nested and in order
(`wellPlaced_nodes`). What the checker shows of a place it has from a node: so the control
structures that an analysis lists and the semantic problems that it reports lie inside the source as
well (`Analysis.ofSource_lineRanges`).
-/

namespace Sema

namespace Program

variable {L : Location → Prop} {p : Program}

theorem at_controls (hp : p.Walks) (hL : ∀ n ∈ p.tops, n.Everywhere L) {f : FunctionSymbol}
    (hf : f ∈ p.table.functions) {record : ControlRecord} (h : record ∈ f.controls) :
    (Finding.control record).At L := by
  obtain ⟨entry, hentry, rfl⟩ := List.mem_map.mp hf
  obtain ⟨⟨G, g⟩, hfirst, rfl⟩ := List.mem_map.mp hentry
  have hsite := mem_sites_of_mem_functionSites (sublist_firsts.subset hfirst)
  have hdecl := decl_mem_of_mem_sites hsite
  rw [shownEntry, FunctionDef.shown, FunctionSymbol.controls_foldl_note] at h
  obtain ⟨finding, hmem, hcontrol⟩ := List.mem_filterMap.mp h
  have hat := (Site.at_findings (hp _ hsite) (fun n hn => hL n (mem_tops hdecl hn)) finding hmem).2
  cases finding <;> cases hcontrol
  exact hat

theorem everywhere_tops :
    ∀ top ∈ p.tops, top.Everywhere fun loc => ∃ n ∈ p.nodes, n.location = loc :=
  fun top htop m hm => ⟨m, mem_nodes_iff.mpr ⟨top, htop, hm⟩, rfl⟩

end Program

theorem Location.StartsIn.within {source : List Char} {loc : Location} (h : loc.StartsIn source)
    (v : Violation) : (v.located loc).Within source := by
  obtain ⟨p, hp, hline, hcolumn⟩ := h
  refine hp.within ?_
  rw [Diagnostic.place, Violation.located, hline, hcolumn]
  rfl

namespace Analysis

variable {source : List Char}

theorem mem_reports_of_semantic {r : Parsed} {p : Program} (hr : Parsed.ofSource source = .ok r)
    {d : Diagnostic} (hd : d ∈ merge r.diagnostics (some p.summary))
    (hphase : d.phase = .semantic) : d ∈ p.reports := by
  rw [merge, ← Sink.extend_append] at hd
  rcases List.mem_append.mp (Sink.mem_of_mem_items hd) with hd | hd
  · rw [← (parsed_eq_ok.mp hr).2] at hd
    rw [Repair.phase_of_mem_report hd] at hphase
    cases hphase
  · exact Sink.mem_of_mem_items hd

/-- The lines of what is recovered. For every source that gets a program, however it was repaired:
each node of it has lines of the source, from a first one to one that is not before it; the lines of
its children, which are all the nodes there are but the declarations, are among its own, and the
children, like the declarations, start on lines that do not go back. The analysis of the source then
has a result, in which the control structures have lines of the source, likewise from a first one to
one that is not before it, and the semantic problems with a line stand at characters of the
source. -/
theorem ofSource_lineRanges {r : Parsed} {p : Program} (hr : Parsed.ofSource source = .ok r)
    (hp : r.program = some p) :
    (∀ c, c ∈ p.nodes ↔ c ∈ p.tops ∨ ∃ n ∈ p.nodes, c ∈ n.children) ∧
      (∀ n ∈ p.nodes, n.WellPlaced source) ∧
      (p.tops.Pairwise fun c d => c.location.line ≤ d.location.line) ∧
      ∃ a, ofSource source = .ok a ∧ a.program = some p ∧
        (∀ f ∈ a.functions, ∀ record ∈ f.controls, 1 ≤ record.startLine ∧
          record.startLine ≤ record.endLine ∧ record.endLine ≤ source.count '\n' + 1) ∧
        ∀ d ∈ a.diagnostics, d.phase = .semantic → d.line ≠ none → d.Within source := by
  obtain ⟨hnodes, htops⟩ := wellPlaced_nodes hr hp
  refine ⟨fun _ => Program.mem_nodes_iff_child, fun n hn => (hnodes n hn).1, htops, ?_⟩
  obtain ⟨a, ha⟩ := exists_ofSource_of_parsed hr
  obtain ⟨r', checked, hr', hchecked, rfl⟩ := ofSource_eq_ok_iff.mp ha
  obtain rfl : r' = r := Except.ok.inj (hr'.symm.trans hr)
  obtain ⟨c, rfl, hc⟩ : ∃ c, checked = some c ∧ Checked.ofProgram p = .ok c := by
    rcases checkedProgram_eq_ok_iff.mp hchecked with ⟨hnone, -⟩ | ⟨p', c, hp', hc, hcheck⟩
    · rw [hp] at hnone
      cases hnone
    · obtain rfl : p = p' := Option.some.inj (hp.symm.trans hp')
      exact ⟨c, hc, hcheck⟩
  obtain ⟨hwalks, rfl⟩ := ofProgram_eq_ok_iff.mp hc
  refine ⟨_, ha, hp, fun f hf record hrecord => ?_, fun d hd hphase hline => ?_⟩
  · obtain ⟨_, ⟨n, hn, rfl⟩, hstart, hend⟩ :=
      Program.at_controls hwalks Program.everywhere_tops hf hrecord
    obtain ⟨last, hlast, hwithin⟩ := (hnodes n hn).1.within
    rw [hstart, hend, Location.lastLine, hlast]
    exact hwithin
  · have hreport := mem_reports_of_semantic hr hd hphase
    rcases Program.placedAt_reports hwalks Program.everywhere_tops hreport with hplaced | hmain
    · obtain ⟨v, _, ⟨n, hn, rfl⟩, -, rfl⟩ := hplaced
      exact (hnodes n hn).2.within v
    · rw [(Program.mem_mainReports.mp hmain).2] at hline
      exact absurd rfl hline

/-- A function whose body is still open at the end, as are the `if` in it and the assignment in
that. -/
def leftOpen : List Char :=
  "void main() \x7b\nif (a) \x7b\nb = 1\n\n".toList

/-- What is inserted at the end has the place of the `1`, so all that was open ends on its line. -/
theorem leftOpen_lineRanges :
    ∃ r p a, Parsed.ofSource leftOpen = .ok r ∧ r.program = some p ∧
      (∀ n ∈ p.nodes, n.WellPlaced leftOpen) ∧ ofSource leftOpen = .ok a ∧
      (a.functions.flatMap (·.controls)).map (fun c => (c.startLine, c.endLine)) = [(2, 3)] ∧
      (∀ f ∈ a.functions, ∀ record ∈ f.controls, record.endLine ≤ 5) ∧
      a.diagnostics.map (·.line) = [some 3, some 3, some 2, some 3] ∧
      ∀ d ∈ a.diagnostics, d.phase = .semantic → d.line ≠ none → d.Within leftOpen := by
  have hshown : ((ofSource leftOpen).toOption.map fun a =>
      (a.program.isSome, (a.functions.flatMap (·.controls)).map fun c => (c.startLine, c.endLine),
        a.diagnostics.map (·.line))) =
        some (true, [(2, 3)], [some 3, some 3, some 2, some 3]) := by decide +kernel
  cases ha : ofSource leftOpen with
  | error e =>
    rw [ha] at hshown
    cases hshown
  | ok a =>
    simp only [ha, Except.toOption, Option.map_some, Option.some.injEq, Prod.mk.injEq] at hshown
    obtain ⟨hprogram, hcontrols, hlines⟩ := hshown
    obtain ⟨p, hp⟩ := Option.isSome_iff_exists.mp hprogram
    obtain ⟨r, checked, hr, -, rfl⟩ := ofSource_eq_ok_iff.mp ha
    obtain ⟨-, hnodes, -, a', ha', -, hrecords, hproblems⟩ := ofSource_lineRanges hr hp
    obtain rfl := Except.ok.inj (ha.symm.trans ha')
    exact ⟨r, p, _, hr, hp, hnodes, rfl, hcontrols,
      fun f hf record hrecord => (hrecords f hf record hrecord).2.2, hlines, hproblems⟩

end Analysis

end Sema
