import Sema.Proofs.Calls.Checking
import Sema.Proofs.Calls.Heights
import Sema.Proofs.Parsing.Agreement
import Sema.Proofs.Parsing.Recovery

/-!
# The room that an analysis needs

On a host that has room for its calls an analysis comes to the result that it has, and on any other
host it ends for want of room (`ofSourceOn_eq`). Room for a few more than twice as many calls as the
tree has tokens is enough, besides what parsing takes (`hasRoom_of_leaves`).
-/

namespace Sema

namespace Analysis

variable {host : Host} {source : List Char}

theorem endingAll_readingCalls (host : Host) (source : List Char) :
    Calls.endingAll (readingCalls host source) =
      ((Parsed.ofSource source).map fun _ => ()).mapError .read := by
  cases htree : (Parsing.recover (pieces source)).tree with
  | none => simp [readingCalls, htree, Parsed.ofSource, Recovered.program]; rfl
  | some tree =>
    obtain ⟨hderives, -⟩ := Parsing.derives_recover htree
    obtain ⟨p, hp⟩ := exists_spellsProgram source hderives.wellFormed hderives.symbol
    have hends : Calls.endingAll [Reading.programCalls host.listCalls tree] = _ := hp.endAs
    simp only [readingCalls, htree, hends, Parsed.ofSource, Recovered.program]
    cases Reading.program source tree <;> rfl

theorem endingAll_checkingCalls {r : Parsed} (hr : Parsed.ofSource source = .ok r) :
    Calls.endingAll (checkingCalls source) = (checkedProgram r.program).map fun _ => () := by
  obtain ⟨program, diagnostics⟩ := r
  cases program with
  | none => simp [checkingCalls, hr, checkedProgram]; rfl
  | some p =>
    rw [checkingCalls, hr]
    show Calls.endingAll [Checking.programCalls p] = _
    rw [Checking.endingAll_programCalls, checkedProgram]
    cases Checked.ofProgram p <;> rfl

theorem ending_calls (host : Host) (source : List Char) :
    (calls host source).ending = (ofSource source).map fun _ => () := by
  rw [calls, Calls.ending, Calls.endingAll, Calls.ending, Calls.endingAll_append,
    Calls.endingAll_nested, endingAll_readingCalls, ofSource]
  cases hparsed : Parsed.ofSource source with
  | error e => rfl
  | ok r =>
    show Calls.endingAll (checkingCalls source) = _
    rw [endingAll_checkingCalls hparsed]
    cases hchecked : checkedProgram r.program <;> simp [hchecked, Except.map]

theorem ofSourceOn_eq (host : Host) (source : List Char) :
    ofSourceOn host source =
      if host.HasRoom source then (ofSource source).mapError .raised else .error .noRoom := by
  rw [ofSourceOn, Calls.run_eq, ending_calls]
  by_cases h : host.HasRoom source
  · rw [if_pos h, if_pos (show (calls host source).depth ≤ host.room from h)]
    cases ofSource source <;> rfl
  · rw [if_neg h, if_neg (show ¬(calls host source).depth ≤ host.room from h)]

/-- Room for the calls that parsing takes, and for twice as many as the tree has tokens and a few
more, is room for all calls. -/
theorem hasRoom_of_leaves (hparsing : host.parsing source + 2 ≤ host.room)
    (hleaves : ∀ tree, (Parsing.recover (pieces source)).tree = some tree →
      2 * tree.leaves.length + 4 ≤ host.room) : host.HasRoom source := by
  have hreading : Calls.heightAll (readingCalls host source) + 2 ≤ host.room := by
    cases htree : (Parsing.recover (pieces source)).tree with
    | none =>
      simp only [readingCalls, htree, Calls.heightAll]
      omega
    | some tree =>
      obtain ⟨hderives, -⟩ := Parsing.derives_recover htree
      obtain ⟨p, hp⟩ := exists_spellsProgram source hderives.wellFormed hderives.symbol
      have hheight := hp.height_reading_le host.listCalls
      have hroom := hleaves tree htree
      simp only [readingCalls, htree, Calls.heightAll]
      omega
  have hchecking : Calls.heightAll (checkingCalls source) + 1 ≤ host.room := by
    unfold checkingCalls
    split
    next p diagnostics hparsed =>
      obtain ⟨tree, htree, hread⟩ := program_eq_some (parsed_eq_ok.mp hparsed).1
      have hspells := spells_of_reading (Parsing.derives_recover htree).1 hread
      have hheight := hspells.height_checking_le
      have hroom := hleaves tree htree
      simp only [Calls.heightAll]
      omega
    next =>
      simp only [Calls.heightAll]
      omega
  refine Nat.le_trans (Calls.depth_le_height _) ?_
  simp only [calls, Calls.height, Calls.heightAll, Calls.heightAll_append, Calls.heightAll_nested]
  omega

end Analysis

end Sema
