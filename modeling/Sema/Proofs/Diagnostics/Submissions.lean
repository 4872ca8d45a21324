import Mathlib.Data.List.Induction
import Sema.Proofs.Diagnostics.Sink

/-!
# What is submitted to a sink

Diagnostics come to a sink by calls of three kinds, in any order (`Sink.Call`). What the sink keeps
depends only on the diagnostics that the calls submit, not on how they are split up among calls
(`Sink.after_eq_extend`): of those with one written form it keeps the first, with its code and its
column, and what has been submitted before changes nothing (`Sink.calls_keep_firsts`).
-/

namespace Sema

/-! ## First elements by place -/

section Unrepeated

variable {α κ : Type} [DecidableEq κ] {key : α → κ}

def unrepeated (key : α → κ) (l : List α) : List α :=
  (l.zipIdx.filter fun p : α × Nat => ∀ earlier ∈ l.take p.2, key earlier ≠ key p.1).map Prod.fst

theorem unrepeated_concat (l : List α) (a : α) :
    unrepeated key (l ++ [a]) =
      unrepeated key l ++ if ∀ earlier ∈ l, key earlier ≠ key a then [a] else [] := by
  have hbefore : ∀ p ∈ l.zipIdx, (l ++ [a]).take p.2 = l.take p.2 := fun p hp =>
    List.take_append_of_le_length (Nat.le_of_lt (List.snd_lt_of_mem_zipIdx hp))
  have hlast : (l ++ [a]).take l.length = l := List.take_left
  rw [unrepeated, List.zipIdx_append, List.filter_append, List.map_append, Nat.zero_add]
  congr 1
  · refine congrArg (List.map Prod.fst) (List.filter_congr fun p hp => ?_)
    rw [hbefore p hp]
  · rw [List.zipIdx_singleton, List.filter_cons, hlast]
    simp only [decide_eq_true_eq]
    split <;> rfl

theorem firsts_eq_unrepeated (l : List α) : firsts key [] l = unrepeated key l := by
  induction l using List.reverseRecOn with
  | nil => rfl
  | append_singleton l a ih =>
    rw [unrepeated_concat, firsts_append, ih, List.append_nil]
    by_cases ha : key a ∈ l.map key
    · obtain ⟨earlier, hmem, hkey⟩ := List.mem_map.mp ha
      rw [firsts_cons_of_mem ha, if_neg fun h => h earlier hmem hkey]
      rfl
    · have hnew : ∀ earlier ∈ l, key earlier ≠ key a := fun earlier hmem hkey =>
        ha (hkey ▸ List.mem_map_of_mem hmem)
      rw [firsts_cons_of_not_mem ha, if_pos hnew]
      rfl

end Unrepeated

namespace Sink

/-! ## Calls -/

/-- A call on a sink. -/
inductive Call where
  | report (code : Code) (message : String) (line column : Option Int)
  | add (d : Diagnostic)
  | extend (ds : List Diagnostic)
  deriving DecidableEq

namespace Call

def next (s : Sink) : Call → Sink
  | report code message line column => (s.report code message line column).2
  | add d => (s.add d).2
  | extend ds => s.extend ds

def submitted : Call → List Diagnostic
  | report code message line column => [⟨code, message, line, column⟩]
  | add d => [d]
  | extend ds => ds

theorem next_eq_extend (s : Sink) (call : Call) : call.next s = s.extend call.submitted := by
  cases call with
  | report => rfl
  | add => rfl
  | extend => rfl

end Call

def after (s : Sink) (calls : List Call) : Sink :=
  calls.foldl Call.next s

def submitted (calls : List Call) : List Diagnostic :=
  calls.flatMap Call.submitted

/-- Calls do what one call with all that they submit does. -/
theorem after_eq_extend (s : Sink) (calls : List Call) :
    s.after calls = s.extend (submitted calls) := by
  induction calls generalizing s with
  | nil => rfl
  | cons call calls ih =>
    rw [submitted, List.flatMap_cons, extend_append, ← call.next_eq_extend]
    exact ih (call.next s)

theorem mem_seen_after {calls : List Call} {text : String} :
    text ∈ (empty.after calls).seen ↔ text ∈ (submitted calls).map Diagnostic.render := by
  rw [after_eq_extend, mem_seen_extend]
  exact or_iff_right List.not_mem_nil

/-- What is told on adding a diagnostic is whether it is stored. -/
structure Told (s : Sink) (d : Diagnostic) (outcome : Bool × Sink) : Prop where
  stored : outcome.1 = true ↔ outcome.2.items = s.items ++ [d]
  dropped : outcome.1 = false ↔ outcome.2 = s

theorem told_add (s : Sink) (d : Diagnostic) : s.Told d (s.add d) := by
  by_cases h : d.render ∈ s.seen
  · rw [add_of_mem h]
    exact ⟨by simp, by simp⟩
  · rw [add_of_not_mem h]
    have hne : (⟨s.items ++ [d], d.render :: s.seen⟩ : Sink) ≠ s := fun heq => by
      have hlength := congrArg (·.items.length) heq
      simp at hlength
    exact ⟨by simp, by simp [hne]⟩

/-- After any calls, the sink holds the diagnostics that were submitted, but for those that are
written like an earlier one, and has seen their written forms. It tells of each diagnostic whether
it is stored, and diagnostics that were submitted before change nothing. -/
theorem calls_keep_firsts (calls : List Call) :
    (empty.after calls).items = unrepeated Diagnostic.render (submitted calls) ∧
      (∀ text, text ∈ (empty.after calls).seen ↔
        text ∈ (empty.after calls).items.map Diagnostic.render) ∧
      (∀ d, (empty.after calls).Told d ((empty.after calls).add d)) ∧
      (∀ code message line column, (empty.after calls).Told ⟨code, message, line, column⟩
        ((empty.after calls).report code message line column)) ∧
      ∀ ds, (∀ d ∈ ds, d ∈ submitted calls) →
        (empty.after calls).extend ds = empty.after calls := by
  refine ⟨?_, fun text => ?_, told_add _, fun code message line column => told_add _ _,
    fun ds h => ?_⟩
  · rw [after_eq_extend, items_extend_empty, firsts_eq_unrepeated]
  · rw [mem_seen_after, after_eq_extend, mem_texts_iff]
  · exact extend_of_mem_seen fun d hd => mem_seen_after.mpr (List.mem_map_of_mem (h d hd))

namespace Repeated

def undeclared (column : Int) : Diagnostic :=
  ⟨.undeclaredIdentifier, "Variable 'y' is not declared", some 3, some column⟩

/-- The variable is reported twice on a line, and once more among others. -/
def calls : List Call :=
  [.report .undeclaredIdentifier "Variable 'y' is not declared" (some 3) (some 4),
    .add (undeclared 9),
    .extend [⟨.missingMain, "no main", none, none⟩, undeclared 12]]

/-- Both columns were submitted, so neither is new. -/
theorem undeclared_keeps_first :
    (∀ d ∈ [undeclared 12, undeclared 4, undeclared 12], d ∈ submitted calls) ∧
      (empty.after calls).extend [undeclared 12, undeclared 4, undeclared 12] =
        empty.after calls := by
  have hsubmitted : ∀ d ∈ [undeclared 12, undeclared 4, undeclared 12], d ∈ submitted calls := by
    decide
  exact ⟨hsubmitted, (calls_keep_firsts calls).2.2.2.2 _ hsubmitted⟩

/-- The column of the first report is the one that is kept. -/
example : (empty.after calls).items = [undeclared 4, ⟨.missingMain, "no main", none, none⟩] := by
  decide

end Repeated

end Sink

end Sema
