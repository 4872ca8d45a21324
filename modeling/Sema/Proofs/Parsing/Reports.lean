import Sema.Parsing.Repair
import Sema.Proofs.Data.Firsts

/-!
# What repairs report

The diagnostics of a list of repairs, each where it comes first (`report_eq_firsts`). One repair
reports one diagnostic, except that closing at the end reports one for each kind of mark that is
missing (`report_closed`).
-/

namespace Sema

namespace Repair

theorem foldl_eq_firsts (ds kept : List Diagnostic) :
    ds.foldl (fun ds d => if d ∈ ds then ds else ds ++ [d]) kept = kept ++ firsts id kept ds := by
  induction ds generalizing kept with
  | nil => simp [firsts]
  | cons d ds ih =>
    rw [List.foldl_cons]
    by_cases hd : d ∈ kept
    · rw [if_pos hd, ih, firsts_cons_of_mem hd]
    · have hkept : ∀ k, k ∈ kept ++ [d] ↔ k ∈ d :: kept := by simp [or_comm]
      rw [if_neg hd, ih, firsts_cons_of_not_mem hd, firsts_congr hkept, List.append_assoc]
      rfl

theorem report_eq_firsts (repairs : List Repair) :
    report repairs = firsts id [] (repairs.flatMap diagnostics) :=
  foldl_eq_firsts _ []

/-- What is reported at the end of the input on a mark that is missing there. -/
def missingAtEnd (pos : Position) (mark : Closer) : Diagnostic :=
  syntaxError pos s!"missing '{mark.text}' at <EOF>"

theorem missingAtEnd_inj {pos : Position} {mark other : Closer}
    (h : missingAtEnd pos mark = missingAtEnd pos other) : mark = other := by
  have hmessage : s!"missing '{mark.text}' at <EOF>" = s!"missing '{other.text}' at <EOF>" :=
    congrArg Diagnostic.message h
  clear h
  revert hmessage
  cases mark <;> cases other <;> decide

/-- At the end of the input, each kind of mark that is missing is reported once. -/
theorem report_closed (marks : List Closer) (pos : Position) :
    report [.closed marks pos] = marks.eraseDups.map (missingAtEnd pos) := by
  have hsame : firsts (fun mark => id (missingAtEnd pos mark)) [] marks = firsts id [] marks :=
    firsts_congr_key [] fun mark _ mark' _ => ⟨missingAtEnd_inj, congrArg _⟩
  have hall : marks.filter (fun mark => mark ∉ ([] : List Closer)) = marks := by simp
  rw [report_eq_firsts, List.flatMap_singleton]
  show firsts id [] (marks.map (missingAtEnd pos)) = _
  rw [← map_firsts, hsame, firsts_id_eq_eraseDups, hall]

theorem report_cons_of_not_mem {done : Repair} {d : Diagnostic} {rest : List Repair}
    (hdone : done.diagnostics = [d]) (hd : d ∉ rest.flatMap diagnostics) :
    report (done :: rest) = d :: report rest := by
  have hother : (rest.flatMap diagnostics).filter (fun d' => d' ∉ [d]) =
      (rest.flatMap diagnostics).filter (fun d' => d' ∉ ([] : List Diagnostic)) := by
    apply List.filter_congr
    intro d' hd'
    have hne : d' ≠ d := fun heq => hd (heq ▸ hd')
    simp [hne]
  rw [report_eq_firsts, report_eq_firsts, List.flatMap_cons, hdone, List.singleton_append,
    firsts_cons_of_not_mem (by simp), firsts_id_eq_eraseDups, firsts_id_eq_eraseDups]
  exact congrArg (fun ds => d :: ds.eraseDups) hother

/-! ## Reports at another place -/

def moved (pos : Position) (d : Diagnostic) : Diagnostic :=
  if d.code = .syntaxError then syntaxError pos d.message else d

@[simp] theorem message_moved (pos : Position) (d : Diagnostic) :
    (moved pos d).message = d.message := by
  unfold moved
  split <;> rfl

/-- Where all syntax errors are at one place, moving them to another does not change the messages
that are kept. -/
theorem messages_firsts_moved {pos pos' : Position} {ds : List Diagnostic}
    (h : ∀ d ∈ ds, d.code = .syntaxError → d = syntaxError pos d.message) :
    (firsts id [] (ds.map (moved pos'))).map (·.message) = (firsts id [] ds).map (·.message) := by
  have hinj : ∀ d ∈ ds, ∀ e ∈ ds, id (moved pos' d) = id (moved pos' e) ↔ id d = id e := by
    intro d hd e he
    refine ⟨fun heq => ?_, fun heq => congrArg (moved pos') heq⟩
    have hmessage : d.message = e.message := by
      simpa using congrArg Diagnostic.message heq
    simp only [id_eq, moved] at heq ⊢
    split at heq
    · next hcode =>
      split at heq
      · next hcode' => rw [h d hd hcode, h e he hcode', hmessage]
      · next hcode' => exact absurd (congrArg Diagnostic.code heq).symm hcode'
    · next hcode =>
      split at heq
      · next hcode' => exact absurd (congrArg Diagnostic.code heq) hcode
      · exact heq
  have hsame : firsts (fun d => id (moved pos' d)) [] ds = firsts id [] ds :=
    firsts_congr_key [] (by simpa using hinj)
  rw [← map_firsts, hsame, List.map_map]
  exact List.map_congr_left fun d _ => message_moved pos' d

end Repair

end Sema
