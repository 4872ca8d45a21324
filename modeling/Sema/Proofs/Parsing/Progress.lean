import Sema.Proofs.Parsing.Closing
import Sema.Proofs.Parsing.Edits

/-!
# Recovery makes progress

A recovering parse goes on after every error and comes to an end (`recover_progresses`). On every
stack that it can come to (`Reachable`) a lookahead lets a bounded number of rules be applied
(`Path.applies_le`). Each token of the source is consumed in one step, with at most one repair
(`Consumes`), and each repair before the end of the input is about a piece of the source behind the
one before (`Run.sublist_extents`). At the end of the input there is one repair at most (`Ends`). So
there are no more repairs than characters, and one more.
-/

namespace Sema

namespace Automaton.Stack

/-! ## The rules that one token has applied -/

/-- A number of rules is applied, one after the other, with a lookahead. -/
inductive Applies (la : Lookahead) : Nat → Stack → Stack → Prop
  | none {σ : Stack} : Applies la 0 σ σ
  | rule {n : Nat} {σ σ₁ σ' : Stack} {r : Rule} (action : action? (state σ) la = some (.reduce r))
      (reduce : reduce? r σ = some σ₁) (rest : Applies la n σ₁ σ') : Applies la (n + 1) σ σ'

variable {la : Lookahead} {n : Nat} {σ σ' : Stack}

theorem Path.applies_work (hσ : Path σ) (h : Applies la n σ σ') : n + work σ' ≤ work σ := by
  induction h with
  | none => omega
  | rule action reduce _ ih =>
    have hr := (action?_eq_reduce action).1
    have hless := work_reduce? hσ hr reduce
    have hrest := ih (path_reduce? hσ hr reduce).1
    omega

/-- The number of rules that can be applied is bounded by the height of the stack. -/
theorem Path.applies_le (hσ : Path σ) (h : Applies la n σ σ') : n ≤ 16 * (σ.length + 2) := by
  have hwork := hσ.applies_work h
  have hbound := work_le σ
  omega

theorem Reduces.exists_applies (h : Reduces la σ σ') : ∃ n, Applies la n σ σ' := by
  induction h with
  | refl => exact ⟨0, .none⟩
  | step action reduce _ ih =>
    obtain ⟨n, hn⟩ := ih
    exact ⟨n + 1, .rule action reduce hn⟩

/-- The stacks that a recovering parse may come to, its trials included: tokens and marks are fed,
rules are applied for what is then refused, and frames are given up. -/
inductive Reachable : Stack → Prop
  | nil : Reachable []
  | fed {σ τ : Stack} {t : Token} (before : Reachable σ) (fits : feed t σ = .ok τ) : Reachable τ
  | settled {σ : Stack} (before : Reachable σ) (la : Lookahead) : Reachable (settle la σ)
  | cut {σ : Stack} (before : Reachable σ) (depth : Nat) : Reachable (σ.drop depth)

theorem Reachable.path (h : Reachable σ) : Path σ := by
  induction h with
  | nil => exact .nil
  | fed _ fits ih => exact (path_of_feed_ok ih fits).1
  | settled _ la ih => exact ((reduces_settle la _).path ih).1
  | cut _ depth ih => exact ih.drop depth

end Automaton.Stack

namespace Parsing

open Automaton
open Automaton.Stack (Reachable Applies)

/-! ## One token -/

/-- How a token is consumed on a stack: the repair, if it takes one, and the stack afterwards. -/
inductive Consumes (t : Token) (σ : Stack) : List Repair → Stack → Prop
  /-- The token is fed. -/
  | fed {τ : Stack} (fits : σ.feed t = .ok τ) : Consumes t σ [] τ
  /-- The token is refused, and fed after a mark. -/
  | inserted {settled marked τ : Stack} {mark : Closer} (refused : σ.feed t = .error settled)
      (fed : settled.feed (mark.token t.span) = .ok marked) (fits : marked.feed t = .ok τ) :
      Consumes t σ [.inserted mark t] τ
  /-- The token is refused, and fed after frames have been given up. -/
  | unwound {settled τ : Stack} {depth : Nat} (refused : σ.feed t = .error settled)
      (some_given_up : 0 < depth ∧ depth ≤ settled.length)
      (fits : Stack.feed t (settled.drop depth) = .ok τ) :
      Consumes t σ [.unwound depth t settled.expected] τ
  /-- The token is refused and dropped. -/
  | dropped {settled : Stack} (refused : σ.feed t = .error settled) :
      Consumes t σ [.dropped t settled.expected] settled

theorem depth_of_unwind? {t : Token} {depth : Nat} {σ fed : Stack}
    (h : unwind? t σ = some (depth, fed)) : 0 < depth ∧ depth ≤ σ.length := by
  induction σ generalizing depth with
  | nil => cases h
  | cons frame below ih =>
    unfold unwind? at h
    split at h
    · cases h
      simp
    · obtain ⟨⟨depth', fed'⟩, hunwind, heq⟩ := Option.map_eq_some_iff.mp h
      cases heq
      have hbelow := ih hunwind
      simp only [List.length_cons]
      omega

theorem consumes_take (t : Token) (σ : Stack) : Consumes t σ (take t σ).1 (take t σ).2 := by
  cases hfeed : σ.feed t with
  | ok τ =>
    rw [take_of_feed_ok hfeed]
    exact .fed hfeed
  | error settled =>
    rw [take_of_feed_error hfeed, repair]
    split
    · next mark fed hinsertion =>
      obtain ⟨-, marked, hmarked, hfed⟩ := feed_of_insertion? hinsertion
      exact .inserted hfeed hmarked hfed
    · split
      · next depth fed hunwind =>
        obtain ⟨-, hunwind⟩ := Option.ite_none_right_eq_some.mp hunwind
        exact .unwound hfeed (depth_of_unwind? hunwind) (feed_of_unwind? hunwind)
      · exact .dropped hfeed

variable {t : Token} {σ τ : Stack} {calls : List Repair} {ps : List Piece}

theorem reachable_of_refused {settled : Stack} (hσ : Reachable σ)
    (h : σ.feed t = .error settled) : Reachable settled := by
  rw [(Stack.path_of_feed_error hσ.path h).2.2]
  exact hσ.settled _

theorem Consumes.reachable (h : Consumes t σ calls τ) (hσ : Reachable σ) : Reachable τ := by
  cases h with
  | fed fits => exact hσ.fed fits
  | inserted refused fed fits => exact ((reachable_of_refused hσ refused).fed fed).fed fits
  | unwound refused _ fits => exact ((reachable_of_refused hσ refused).cut _).fed fits
  | dropped refused => exact reachable_of_refused hσ refused

/-! ## The pieces of a source -/

/-- A recovering parse goes through pieces, one after the other: it passes over ignored ones, skips
stray characters and consumes tokens. The repairs are the calls for help, in their order. -/
inductive Run : Stack → List Piece → List Repair → Stack → Prop
  | done {σ : Stack} : Run σ [] [] σ
  | passed {σ τ : Stack} {cs : List Char} {ps : List Piece} {calls : List Repair}
      (rest : Run σ ps calls τ) : Run σ (.ignored cs :: ps) calls τ
  | skipped {σ τ : Stack} {c : Char} {pos : Position} {ps : List Piece} {calls : List Repair}
      (rest : Run σ ps calls τ) : Run σ (.stray c pos :: ps) (.skipped c pos :: calls) τ
  | consumed {σ σ₁ τ : Stack} {t : Token} {ps : List Piece} {first calls : List Repair}
      (step : Consumes t σ first σ₁) (rest : Run σ₁ ps calls τ) :
      Run σ (.token t :: ps) (first ++ calls) τ

theorem Run.reachable (h : Run σ ps calls τ) (hσ : Reachable σ) : Reachable τ := by
  induction h with
  | done => exact hσ
  | passed _ ih => exact ih hσ
  | skipped _ ih => exact ih hσ
  | consumed step _ ih => exact ih (step.reachable hσ)

theorem exists_run (last : Span) (σ : Stack) (ps : List Piece) :
    ∃ calls, Run σ ps calls (takeAll σ (tokensOf ps)) ∧
      (recoverFrom last σ ps).repairs =
        calls ++ (close (lastSpan last ps) (takeAll σ (tokensOf ps))).repairs ∧
      (recoverFrom last σ ps).tree = (close (lastSpan last ps) (takeAll σ (tokensOf ps))).tree := by
  induction ps generalizing last σ with
  | nil => exact ⟨[], .done, rfl, rfl⟩
  | cons p ps ih =>
    cases p with
    | ignored cs =>
      obtain ⟨calls, hrun, hrepairs, htree⟩ := ih last σ
      exact ⟨calls, .passed hrun, hrepairs, htree⟩
    | stray c pos =>
      obtain ⟨calls, hrun, hrepairs, htree⟩ := ih last σ
      refine ⟨.skipped c pos :: calls, .skipped hrun, ?_, htree⟩
      rw [recoverFrom, hrepairs]
      rfl
    | token t =>
      obtain ⟨calls, hrun, hrepairs, htree⟩ := ih t.span (take t σ).2
      refine ⟨(take t σ).1 ++ calls, .consumed (consumes_take t σ) hrun, ?_, ?_⟩
      · rw [recoverFrom_token, lastSpan_token, hrepairs, List.append_assoc]
        rfl
      · rw [recoverFrom_token, lastSpan_token, htree]
        rfl

end Parsing

/-! ## Where repairs are -/

/-- The part of the source that a repair is about, as numbers of characters before and after; none
for the end of the input. -/
def Repair.extent? : Repair → Option (Nat × Nat)
  | skipped _ pos => some (pos.offset, pos.offset + 1)
  | inserted _ t | unwound _ t _ | dropped t _ => some t.extent
  | closed _ _ | abandoned _ _ => none

def Piece.extent? : Piece → Option (Nat × Nat)
  | token t => some t.extent
  | ignored _ => none
  | stray _ pos => some (pos.offset, pos.offset + 1)

theorem stray_of_piecesFrom {pos pos' : Position} {cs : List Char} {c : Char} {ps : List Piece}
    (h : piecesFrom pos cs = .stray c pos' :: ps) : pos' = pos := by
  rcases cs with _ | ⟨d, cs⟩
  · rw [piecesFrom_nil] at h
    cases h
  cases hfirst : Lexeme.first? d cs with
  | none =>
    rw [piecesFrom_of_stray hfirst] at h
    cases h
    rfl
  | some lexeme =>
    obtain ⟨cls, n⟩ := lexeme
    rw [piecesFrom_of_first? hfirst] at h
    cases cls <;> cases h

theorem extent?_of_piecesFrom {pos : Position} {cs : List Char} {p : Piece} {ps : List Piece}
    (h : piecesFrom pos cs = p :: ps) :
    p.extent? = none ∨ p.extent? = some (pos.offset, pos.offset + p.text.length) := by
  cases p with
  | ignored => exact .inl rfl
  | token t =>
    obtain ⟨hstart, hstop, -⟩ := token_of_piecesFrom h
    rw [Piece.extent?, Token.extent, hstart, hstop, Position.offset_advance]
    exact .inr rfl
  | stray c pos' =>
    rw [Piece.extent?, stray_of_piecesFrom h]
    exact .inr rfl

theorem extents_ordered {pos : Position} {cs : List Char} {ps : List Piece}
    (h : piecesFrom pos cs = ps) :
    (ps.filterMap Piece.extent?).Pairwise (fun e f => e.2 ≤ f.1) ∧
      ∀ e ∈ ps.filterMap Piece.extent?,
        pos.offset ≤ e.1 ∧ e.1 < e.2 ∧ e.2 ≤ pos.offset + cs.length := by
  induction ps generalizing pos cs with
  | nil => exact ⟨.nil, by simp⟩
  | cons p ps ih =>
    obtain ⟨hne, rest, rfl, hps⟩ := piecesFrom_eq_cons h
    obtain ⟨hordered, hwithin⟩ := ih hps.symm
    have hpos := List.length_pos_iff.mpr hne
    rw [Position.offset_advance] at hwithin
    rw [List.length_append]
    have hrest : ∀ e ∈ ps.filterMap Piece.extent?, pos.offset + p.text.length ≤ e.1 ∧
        pos.offset ≤ e.1 ∧ e.1 < e.2 ∧ e.2 ≤ pos.offset + (p.text.length + rest.length) := by
      intro e he
      have he' := hwithin e he
      omega
    rcases extent?_of_piecesFrom h with hnone | hsome
    · rw [List.filterMap_cons_none hnone]
      exact ⟨hordered, fun e he => (hrest e he).2⟩
    · rw [List.filterMap_cons_some hsome]
      refine ⟨List.pairwise_cons.mpr ⟨fun e he => (hrest e he).1, hordered⟩,
        List.forall_mem_cons.mpr ⟨?_, fun e he => (hrest e he).2⟩⟩
      show pos.offset ≤ pos.offset ∧ pos.offset < pos.offset + p.text.length ∧
        pos.offset + p.text.length ≤ pos.offset + (p.text.length + rest.length)
      omega

theorem length_piecesFrom_le (pos : Position) (cs : List Char) :
    (piecesFrom pos cs).length ≤ cs.length := by
  fun_induction piecesFrom pos cs with
  | case1 => exact Nat.le_refl _
  | case2 pos c cs _ ih => exact Nat.succ_le_succ ih
  | case3 pos c cs cls n _ lexeme ih =>
    rw [List.length_drop] at ih
    simp only [List.length_cons]
    omega

namespace Parsing

open Automaton
open Automaton.Stack (Reachable Applies)

variable {t : Token} {σ τ : Stack} {calls : List Repair} {ps : List Piece}

theorem Consumes.extent (h : Consumes t σ calls τ) :
    calls.map Repair.extent? = [] ∨ calls.map Repair.extent? = [some t.extent] := by
  cases h with
  | fed => exact .inl rfl
  | inserted | unwound | dropped => exact .inr rfl

/-- Every call is about a piece, and no two about the same. -/
theorem Run.sublist_extents (h : Run σ ps calls τ) :
    ∃ extents : List (Nat × Nat), calls.map Repair.extent? = extents.map some ∧
      extents.Sublist (ps.filterMap Piece.extent?) := by
  induction h with
  | done => exact ⟨[], rfl, .slnil⟩
  | passed _ ih => exact ih
  | skipped _ ih =>
    obtain ⟨extents, hcalls, hsublist⟩ := ih
    exact ⟨_ :: extents, congrArg (_ :: ·) hcalls, hsublist.cons_cons _⟩
  | consumed step _ ih =>
    obtain ⟨extents, hcalls, hsublist⟩ := ih
    rw [List.map_append, hcalls]
    rcases step.extent with hnone | hone
    · exact ⟨extents, by rw [hnone, List.nil_append], hsublist.cons _⟩
    · exact ⟨_ :: extents, by rw [hone]; rfl, hsublist.cons_cons _⟩

/-! ## The end of the input -/

/-- How a parse ends: the end of the input is accepted; or it is refused once, and accepted after
marks; or it is refused for good. -/
inductive Ends (last : Span) (σ : Stack) : List Repair → Option Tree → Prop
  | accepted {tree : Tree} (fits : σ.finish = .ok tree) : Ends last σ [] (some tree)
  | closed {settled : Stack} {marks : List Closer} {tree : Tree}
      (refused : σ.finish = .error settled) (rounds : marks.length < closingRounds)
      (closes : Closes last settled marks tree) :
      Ends last σ [.closed marks last.start] (some tree)
  | abandoned {settled : Stack} (refused : σ.finish = .error settled) :
      Ends last σ [.abandoned last.start settled.expected] none

theorem ends_close (hσ : Stack.Path σ) (last : Span) :
    Ends last σ (close last σ).repairs (close last σ).tree := by
  unfold close
  split
  · next tree hfinish => exact .accepted hfinish
  · next settled hfinish =>
    have hsettled := (Stack.path_of_finish_error hσ hfinish).1
    split
    · next marks tree hwithin =>
      obtain ⟨hrounds, hcloses⟩ := (closeWithin_eq_some_iff hsettled).mp hwithin
      exact .closed hfinish hrounds hcloses
    · exact .abandoned hfinish

theorem Ends.extent {last : Span} {tree : Option Tree} (h : Ends last σ calls tree) :
    calls.length ≤ 1 ∧ ∀ call ∈ calls, call.extent? = none := by
  cases h with
  | accepted => simp
  | closed | abandoned => simp [Repair.extent?]

/-- A recovering parse makes progress and comes to an end, whatever the source. On every stack that
it can come to, a lookahead has a bounded number of rules applied, and then asks for no more of
them. The parse goes through the pieces of the source, in which it consumes every token in one step,
and what it repairs there is about parts of the source that lie one behind the other, none of them
empty. At the end of the input it repairs at most once. So it repairs at most once more often than
there are characters. -/
theorem recover_progresses (source : List Char) :
    (∀ σ, Reachable σ → ∀ la, (∀ n τ, Applies la n σ τ → n ≤ 16 * (σ.length + 2)) ∧
        (∃ n, Applies la n σ (Stack.settle la σ)) ∧
        ∀ r, action? (Stack.state (Stack.settle la σ)) la ≠ some (.reduce r)) ∧
      (∀ ps calls σ, Run [] ps calls σ → Reachable σ) ∧
      ∃ (calls ending : List Repair) (extents : List (Nat × Nat)) (σ : Stack),
        (recover (pieces source)).repairs = calls ++ ending ∧
        Run [] (pieces source) calls σ ∧
        Ends (lastSpan ⟨.start, .start⟩ (pieces source)) σ ending (recover (pieces source)).tree ∧
        calls.map Repair.extent? = extents.map some ∧
        extents.Pairwise (fun e f => e.2 ≤ f.1) ∧
        (∀ e ∈ extents, e.1 < e.2 ∧ e.2 ≤ source.length) ∧
        (∀ call ∈ ending, call.extent? = none) ∧ ending.length ≤ 1 ∧
        (recover (pieces source)).repairs.length ≤ source.length + 1 := by
  refine ⟨fun σ hσ la => ⟨fun n τ h => hσ.path.applies_le h,
    (Stack.reduces_settle la σ).exists_applies, Stack.action?_settle_ne_reduce hσ.path la⟩,
    fun ps calls σ h => h.reachable .nil, ?_⟩
  obtain ⟨calls, hrun, hrepairs, htree⟩ := exists_run ⟨.start, .start⟩ [] (pieces source)
  obtain ⟨extents, hcalls, hsublist⟩ := hrun.sublist_extents
  obtain ⟨hordered, hwithin⟩ := extents_ordered (pieces.eq_def source).symm
  have hends := ends_close (hrun.reachable .nil).path (lastSpan ⟨.start, .start⟩ (pieces source))
  obtain ⟨hone, hnone⟩ := hends.extent
  have hlength : calls.length ≤ source.length := by
    calc calls.length
      _ = extents.length := by simpa using congrArg List.length hcalls
      _ ≤ ((pieces source).filterMap Piece.extent?).length := hsublist.length_le
      _ ≤ (pieces source).length := List.length_filterMap_le ..
      _ ≤ source.length := length_piecesFrom_le .start source
  refine ⟨calls, _, extents, _, hrepairs, hrun, htree ▸ hends, hcalls, hordered.sublist hsublist,
    fun e he => ?_, hnone, hone, ?_⟩
  · have he' := hwithin e (hsublist.subset he)
    rw [Position.start, Nat.zero_add] at he'
    exact he'.2
  · rw [recover, hrepairs, List.length_append]
    omega

end Parsing

end Sema
