import Sema.Calls.Nesting

/-!
# Where calls have room

Calls come to their end on a host just if no more of them are within each other than it has room
for, and else the host stops them (`Calls.run_eq`).
-/

namespace Sema

namespace Calls

/-! ## Running and ending -/

def halting (x : Except AnalysisError Unit) : Except Halt Unit :=
  x.mapError .raised

@[simp] theorem halting_ok (u : Unit) : halting (.ok u) = .ok u := rfl

@[simp] theorem halting_error (e : AnalysisError) : halting (.error e) = .error (.raised e) := rfl

mutual

theorem run_eq : ∀ (room : Nat) (c : Calls),
    c.run room = if c.depth ≤ room then halting c.ending else .error .noRoom
  | _, raise e => by simp [run, depth, ending]
  | 0, call inner => by simp [run, depth]
  | room + 1, call inner => by simp [run, depth, ending, runAll_eq room inner]

theorem runAll_eq : ∀ (room : Nat) (cs : List Calls),
    runAll room cs = if depthAll cs ≤ room then halting (endingAll cs) else .error .noRoom
  | _, [] => rfl
  | room, c :: cs => by
    rw [runAll, run_eq room c, runAll_eq room cs, depthAll, endingAll]
    by_cases hc : c.depth ≤ room
    · cases c.ending with
      | error e => simp only [hc, if_true]; rfl
      | ok u => simp only [hc, if_true, Nat.max_le, true_and]; rfl
    · cases c.ending with
      | error e => simp only [hc, if_false]; rfl
      | ok u => simp only [hc, if_false, Nat.max_le, false_and]; rfl

end

/-! ## Lists of calls -/

theorem endingAll_append (cs ds : List Calls) :
    endingAll (cs ++ ds) = (do endingAll cs; endingAll ds) := by
  induction cs with
  | nil => rfl
  | cons c cs ih =>
    rw [List.cons_append, endingAll, endingAll, ih]
    cases c.ending <;> rfl

@[simp] theorem endingAll_nested (n : Nat) : endingAll (nested n) = .ok () := by
  induction n with
  | zero => rfl
  | succ n ih => simp only [nested, endingAll, ending, ih]; rfl

end Calls

end Sema
