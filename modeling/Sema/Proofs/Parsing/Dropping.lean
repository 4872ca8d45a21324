import Sema.Proofs.Parsing.Closing
import Sema.Proofs.Parsing.Edits

/-!
# Dropped tokens

A token that is dropped is not on the stack, but the rules that it has had applied before it turned
out not to fit are not taken back. Where what follows would have had these rules applied as well, or
does not fit without the dropped token either and is mended by a mark that is inserted, the token
leaves no trace (`LeavesNoTrace`): the parse goes on as if it had never been there
(`recoverFrom_of_leavesNoTrace`), and only its own report tells of it (`ofSource_of_dropped`).

In other cases it may leave one: a comma in a group completes the expression before it, and the
operator that follows comes too late (`comma_leaves_trace`).
-/

namespace Sema

namespace Automaton.Stack

/-! ## Rules applied for another lookahead -/

theorem feed_congr {t : Token} {σ τ : Stack}
    (h : settle (.token t.kind) σ = settle (.token t.kind) τ) : feed t σ = feed t τ := by
  simp only [feed, h]

theorem finish_congr {σ τ : Stack} (h : settle .endOfInput σ = settle .endOfInput τ) :
    finish σ = finish τ := by
  simp only [finish, h]

theorem toOption_feed_mark {la : Lookahead} {σ σ' : Stack} (hσ : Path σ) (h : Reduces la σ σ')
    (k : Closer) (place : Span) :
    (feed (k.token place) σ').toOption = (feed (k.token place) σ).toOption := by
  cases hfeed : feed (k.token place) σ with
  | ok τ => rw [feed_mark_of_reduces hσ h hfeed]
  | error settled =>
    cases hfeed' : feed (k.token place) σ' with
    | ok τ =>
      rw [feed_of_reduces hσ h hfeed'] at hfeed
      cases hfeed
    | error settled' => rfl

end Automaton.Stack

namespace Parsing

open Automaton
open Automaton.Stack (Reduces)

/-! ## Inserted marks -/

theorem insert?_eq_bind (t : Token) (σ : Stack) (mark : Closer) :
    insert? t σ mark =
      (σ.feed (mark.token t.span)).toOption.bind fun marked => (marked.feed t).toOption := by
  unfold insert?
  cases σ.feed (mark.token t.span) <;> rfl

theorem insertion?_of_reduces {la : Lookahead} {σ σ' : Stack} (hσ : Stack.Path σ)
    (h : Reduces la σ σ') (t : Token) : insertion? t σ' = insertion? t σ := by
  have hinsert (mark : Closer) : insert? t σ' mark = insert? t σ mark := by
    rw [insert?_eq_bind, insert?_eq_bind, Stack.toOption_feed_mark hσ h]
  simp only [insertion?, hinsert]

theorem repair_of_insertion? {t : Token} {σ fed : Stack} {mark : Closer}
    (h : insertion? t σ = some (mark, fed)) : repair t σ = (.inserted mark t, fed) := by
  rw [repair, h]

theorem exists_of_repair_inserted {t : Token} {σ : Stack} {mark : Closer}
    (h : (repair t σ).1 = .inserted mark t) : ∃ fed, insertion? t σ = some (mark, fed) := by
  unfold repair at h
  split at h
  · next mark' fed hinsertion =>
    cases h
    exact ⟨fed, hinsertion⟩
  · split at h <;> cases h

/-- Where a mark is inserted before a token, it is also inserted after rules that another lookahead
has allowed. -/
theorem take_of_inserted {la : Lookahead} {σ σ' : Stack} {t : Token} {mark : Closer}
    (hσ : Stack.Path σ) (h : Reduces la σ σ') (hinserted : (take t σ).1 = [.inserted mark t]) :
    take t σ' = take t σ := by
  cases hfeed : σ.feed t with
  | ok next =>
    rw [take_of_feed_ok hfeed] at hinserted
    cases hinserted
  | error settled =>
    rw [take_of_feed_error hfeed] at hinserted
    obtain ⟨fed, hsettled⟩ := exists_of_repair_inserted (List.head_eq_of_cons_eq hinserted)
    cases hfeed' : σ'.feed t with
    | ok next =>
      rw [Stack.feed_of_reduces hσ h hfeed'] at hfeed
      cases hfeed
    | error settled' =>
      -- on both settled stacks the same marks can be inserted as on `σ`
      have hreduces : Reduces (.token t.kind) σ settled := by
        rw [(Stack.path_of_feed_error hσ hfeed).2.2]
        exact Stack.reduces_settle _ σ
      have hreduces' : Reduces (.token t.kind) σ' settled' := by
        rw [(Stack.path_of_feed_error (h.path hσ).1 hfeed').2.2]
        exact Stack.reduces_settle _ σ'
      have hsettled' : insertion? t settled' = some (mark, fed) := by
        rw [insertion?_of_reduces (h.path hσ).1 hreduces', insertion?_of_reduces hσ h,
          ← insertion?_of_reduces hσ hreduces, hsettled]
      rw [take_of_feed_error hfeed, take_of_feed_error hfeed', repair_of_insertion? hsettled,
        repair_of_insertion? hsettled']

/-- Where the end of the input is refused, the same marks are inserted after rules that another
lookahead has allowed. -/
theorem closeWithin_of_reduces {la : Lookahead} {last : Span} {n : Nat} {σ σ' τ τ' : Stack}
    (hσ : Stack.Path σ) (h : Reduces la σ σ') (hfinish : σ.finish = .error τ)
    (hfinish' : σ'.finish = .error τ') : closeWithin last n σ' = closeWithin last n σ := by
  cases n with
  | zero => rfl
  | succ n => simp only [closeWithin, hfinish, hfinish', Stack.toOption_feed_mark hσ h]

/-- Where marks are inserted at the end of the input, the same are inserted after rules that another
lookahead has allowed. -/
theorem close_of_closed {la : Lookahead} {last : Span} {σ σ' : Stack} {marks : List Closer}
    {pos : Position} (hσ : Stack.Path σ) (h : Reduces la σ σ')
    (hclosed : (close last σ).repairs = [.closed marks pos]) : close last σ' = close last σ := by
  cases hfinish : σ.finish with
  | ok tree =>
    simp only [close, hfinish] at hclosed
    cases hclosed
  | error settled =>
    cases hfinish' : σ'.finish with
    | ok tree =>
      rw [Stack.finish_of_reduces hσ h hfinish'] at hfinish
      cases hfinish
    | error settled' =>
      have hσ' := (h.path hσ).1
      have hreduces : Reduces .endOfInput σ settled := by
        rw [(Stack.path_of_finish_error hσ hfinish).2.2]
        exact Stack.reduces_settle _ σ
      have hreduces' : Reduces .endOfInput σ' settled' := by
        rw [(Stack.path_of_finish_error hσ' hfinish').2.2]
        exact Stack.reduces_settle _ σ'
      have hsame : closeWithin last closingRounds settled' =
          closeWithin last closingRounds settled := by
        rw [closeWithin_of_reduces hσ' hreduces' hfinish' (finish_of_finish_error hσ' hfinish'),
          closeWithin_of_reduces hσ h hfinish hfinish',
          closeWithin_of_reduces hσ hreduces hfinish (finish_of_finish_error hσ hfinish)]
      simp only [close, hfinish, hfinish', hsame] at hclosed ⊢
      cases hwithin : closeWithin last closingRounds settled with
      | none =>
        rw [hwithin] at hclosed
        cases hclosed
      | some x => rfl

theorem closed_elsewhere {last : Span} {σ : Stack} {marks : List Closer} {pos : Position}
    (h : (close last σ).repairs = [.closed marks pos]) (last' : Span) :
    ∃ pos', (close last' σ).repairs = [.closed marks pos'] := by
  have hbare : (close last' σ).bare = (close last σ).bare := by rw [← close_bare, ← close_bare]
  have hrepairs := congrArg Recovered.repairs hbare
  simp only [Recovered.bare, h, List.map_cons, List.map_nil] at hrepairs
  obtain ⟨done, hdone, hsame⟩ := List.map_eq_singleton_iff.mp hrepairs
  rw [hdone]
  cases done <;> cases hsame
  exact ⟨_, rfl⟩

/-! ## Tokens that leave no trace -/

/-- A token that is dropped before the tokens `w` leaves no trace: for what follows, the rules that
it has had applied would have been applied anyway; or what follows does not fit without it either,
and is mended by a mark, or by marks at the end of the input. -/
def LeavesNoTrace (σ : Stack) (t : Token) (w : List Token) : Prop :=
  (σ.settle (.token t.kind)).settle (Stack.peek .endOfInput w) =
      σ.settle (Stack.peek .endOfInput w) ∨
    match w with
    | next :: _ => ∃ mark, (take next σ).1 = [.inserted mark next]
    | [] => ∃ marks, (close .nowhere σ).repairs = [.closed marks .start]

/-- After a token that leaves no trace the parse goes on as if the token had not been there. -/
theorem recoverFrom_of_leavesNoTrace {σ : Stack} {t : Token} {ps : List Piece} (hσ : Stack.Path σ)
    (h : LeavesNoTrace σ t (tokensOf ps)) (last : Span) :
    recoverFrom last (σ.settle (.token t.kind)) ps = recoverFrom last σ ps := by
  have hreduces := Stack.reduces_settle (.token t.kind) σ
  induction ps generalizing last with
  | nil =>
    rcases h with hsettle | ⟨marks, hmarks⟩
    · show close last _ = close last σ
      rw [close, close, Stack.finish_congr hsettle]
    · obtain ⟨pos, hclosed⟩ := closed_elsewhere hmarks last
      exact close_of_closed hσ hreduces hclosed
  | cons p ps ih =>
    cases p with
    | ignored cs => exact ih h last
    | stray c pos =>
      rw [recoverFrom, ih h last, recoverFrom]
    | token next =>
      have htake : take next (σ.settle (.token t.kind)) = take next σ := by
        rcases h with hsettle | ⟨mark, hmark⟩
        · rw [take, take, Stack.feed_congr hsettle]
        · exact take_of_inserted hσ hreduces hmark
      rw [recoverFrom, htake, recoverFrom]

/-! ## What is reported -/

def AtEnd (message : String) : Prop :=
  (∃ mark : Closer, message = s!"missing '{mark.text}' at <EOF>") ∨
    ∃ expected, message = Repair.mismatch "<EOF>" expected

theorem of_mem_diagnostics_close {last : Span} {σ : Stack} {d : Diagnostic}
    (h : d ∈ (close last σ).repairs.flatMap Repair.diagnostics) :
    d = Repair.syntaxError last.start d.message ∧ AtEnd d.message := by
  unfold close at h
  split at h
  · cases h
  · split at h
    · rw [List.flatMap_singleton] at h
      obtain ⟨mark, -, rfl⟩ := List.mem_map.mp h
      exact ⟨rfl, .inl ⟨mark, rfl⟩⟩
    · rw [List.flatMap_singleton] at h
      obtain rfl := List.mem_singleton.mp h
      exact ⟨rfl, .inr ⟨_, rfl⟩⟩

theorem of_mem_diagnostics_take {t : Token} {σ : Stack} {d : Diagnostic}
    (h : d ∈ (take t σ).1.flatMap Repair.diagnostics) :
    d = Repair.syntaxError t.start d.message := by
  cases hfeed : σ.feed t with
  | ok next =>
    rw [take_of_feed_ok hfeed] at h
    cases h
  | error settled =>
    obtain ⟨d', hd', hcode, hline, hcolumn⟩ := diagnostics_repair t settled []
    rw [take_of_feed_error hfeed, List.flatMap_singleton, hd'] at h
    obtain rfl := List.mem_singleton.mp h
    rw [Repair.syntaxError, Diagnostic.mk.injEq]
    exact ⟨hcode, rfl, hline, hcolumn⟩

theorem of_mem_diagnostics_recoverFrom {last : Span} {σ : Stack} {ps : List Piece} {d : Diagnostic}
    (h : d ∈ (recoverFrom last σ ps).repairs.flatMap Repair.diagnostics) :
    d.code = .lexicalError ∨
      (∃ t ∈ tokensOf ps, d = Repair.syntaxError t.start d.message) ∨
      d = Repair.syntaxError (lastSpan last ps).start d.message ∧ AtEnd d.message := by
  induction ps generalizing last σ with
  | nil => exact .inr (.inr (of_mem_diagnostics_close h))
  | cons p ps ih =>
    cases p with
    | ignored cs => exact ih h
    | stray c pos =>
      rw [recoverFrom, List.flatMap_cons, List.mem_append] at h
      rcases h with h | h
      · obtain rfl := List.mem_singleton.mp h
        exact .inl rfl
      · exact ih h
    | token t =>
      rw [recoverFrom_token, List.flatMap_append, List.mem_append] at h
      rw [tokensOf_token, lastSpan_token]
      rcases h with h | h
      · exact .inr (.inl ⟨t, List.mem_cons_self, of_mem_diagnostics_take h⟩)
      · rcases ih h with hlexical | ⟨t', ht', hd⟩ | hend
        · exact .inl hlexical
        · exact .inr (.inl ⟨t', List.mem_cons_of_mem _ ht', hd⟩)
        · exact .inr (.inr hend)

theorem moved_diagnostics_close (last last' : Span) (σ : Stack) :
    ((close last σ).repairs.flatMap Repair.diagnostics).map (Repair.moved last'.start) =
      (close last' σ).repairs.flatMap Repair.diagnostics := by
  cases hfinish : σ.finish with
  | ok tree => simp only [close, hfinish, List.flatMap_nil, List.map_nil]
  | error settled =>
    have hmarks : (closeWithin last closingRounds settled).map Prod.fst =
        (closeWithin last' closingRounds settled).map Prod.fst := by
      have hbare := (closeWithin_bare last closingRounds settled).symm.trans
        (closeWithin_bare last' closingRounds settled)
      have hfirst := congrArg (Option.map Prod.fst) hbare
      rw [Option.map_map, Option.map_map] at hfirst
      exact hfirst
    simp only [close, hfinish]
    cases hwithin : closeWithin last closingRounds settled with
    | none =>
      rw [hwithin, Option.map_none, eq_comm, Option.map_eq_none_iff] at hmarks
      rw [hmarks]
      rfl
    | some x =>
      rw [hwithin, Option.map_some, eq_comm, Option.map_eq_some_iff] at hmarks
      obtain ⟨y, hy, hsame⟩ := hmarks
      rw [hy]
      simp only [List.flatMap_singleton, Repair.diagnostics, List.map_map, hsame]
      rfl

theorem recoverFrom_of_token {ps : List Piece} (h : tokensOf ps ≠ []) (last last' : Span)
    (σ : Stack) : recoverFrom last σ ps = recoverFrom last' σ ps := by
  induction ps with
  | nil => exact absurd rfl h
  | cons p ps ih =>
    cases p with
    | ignored cs => exact ih h
    | stray c pos => rw [recoverFrom, ih h, recoverFrom]
    | token t => rfl

theorem moved_diagnostics_recoverFrom {last : Span} (last' : Span) {σ : Stack} {ps : List Piece}
    (h : tokensOf ps = []) :
    ((recoverFrom last σ ps).repairs.flatMap Repair.diagnostics).map (Repair.moved last'.start) =
      (recoverFrom last' σ ps).repairs.flatMap Repair.diagnostics := by
  induction ps with
  | nil => exact moved_diagnostics_close last last' σ
  | cons p ps ih =>
    cases p with
    | ignored cs => exact ih h
    | stray c pos =>
      rw [recoverFrom, recoverFrom, List.flatMap_cons, List.flatMap_cons, List.map_append, ih h]
      rfl
    | token t => cases h

theorem messages_recoverFrom (last last' : Span) (σ : Stack) (ps : List Piece) :
    (Repair.report (recoverFrom last σ ps).repairs).map (·.message) =
      (Repair.report (recoverFrom last' σ ps).repairs).map (·.message) := by
  by_cases htokens : tokensOf ps = []
  · have hplace : ∀ d ∈ (recoverFrom last σ ps).repairs.flatMap Repair.diagnostics,
        d.code = .syntaxError → d = Repair.syntaxError last.start d.message := by
      intro d hd hcode
      have hlast : lastSpan last ps = last := by rw [lastSpan, htokens]; rfl
      have hcases := of_mem_diagnostics_recoverFrom hd
      rw [htokens, hlast, hcode] at hcases
      exact (by simpa using hcases : d = _ ∧ _).1
    rw [Repair.report_eq_firsts, Repair.report_eq_firsts,
      ← moved_diagnostics_recoverFrom last' htokens, Repair.messages_firsts_moved hplace]
  · rw [recoverFrom_of_token htokens last last']

/-! ## The first error -/

/-- The first token that does not fit, if all pieces before it do, with the stack before it and the
pieces after it. -/
def misfit? (σ : Stack) : List Piece → Option (Stack × Token × List Piece)
  | [] => none
  | .ignored _ :: rest => misfit? σ rest
  | .stray _ _ :: _ => none
  | .token t :: rest =>
    match σ.feed t with
    | .ok next => misfit? next rest
    | .error _ => some (σ, t, rest)

theorem repair_eq_dropped {t t' : Token} {σ : Stack} {expected : List Lookahead}
    (h : (repair t σ).1 = .dropped t' expected) :
    t' = t ∧ repair t σ = (.dropped t expected, σ) := by
  unfold repair at h ⊢
  split at h
  · cases h
  · split at h
    · cases h
    · cases h
      exact ⟨rfl, rfl⟩

/-- Where a parse first drops a token, the tokens before fit, and it goes on with the rules that the
dropped one has had applied. -/
theorem recoverFrom_of_dropped {last : Span} {σ : Stack} {ps : List Piece} {t : Token}
    {expected : List Lookahead} {rest : List Repair} (hσ : Stack.Path σ)
    (h : (recoverFrom last σ ps).repairs = .dropped t expected :: rest) :
    ∃ before after τ, misfit? σ ps = some (τ, t, after) ∧ ps = before ++ .token t :: after ∧
      NoStray before ∧ σ.feedAll (tokensOf before) = some τ ∧
      rest = (recoverFrom t.span (τ.settle (.token t.kind)) after).repairs ∧
      (recoverFrom last σ ps).tree =
        (recoverFrom t.span (τ.settle (.token t.kind)) after).tree := by
  induction ps generalizing last σ with
  | nil =>
    exfalso
    change (close last σ).repairs = _ at h
    unfold close at h
    split at h
    · cases h
    · split at h <;> cases h
  | cons p ps ih =>
    cases p with
    | ignored cs =>
      obtain ⟨before, after, τ, hmisfit, hps, hstray, hfeed, hrest⟩ := ih hσ h
      exact ⟨.ignored cs :: before, after, τ, hmisfit, congrArg _ hps, by simpa using hstray, hfeed,
        hrest⟩
    | stray c pos => cases h
    | token next =>
      rw [recoverFrom_token] at h
      cases hfeed : σ.feed next with
      | ok fed =>
        rw [take_of_feed_ok hfeed] at h
        obtain ⟨before, after, τ, hmisfit, hps, hstray, hfed, hrest, htree⟩ :=
          ih (Stack.path_of_feed_ok hσ hfeed).1 h
        refine ⟨.token next :: before, after, τ, ?_, congrArg _ hps, by simpa using hstray, ?_,
          hrest, ?_⟩
        · rw [misfit?, hfeed]
          exact hmisfit
        · rw [tokensOf_token, Stack.feedAll_cons_of_feed hfeed, hfed]
        · rw [recoverFrom_token, take_of_feed_ok hfeed]
          exact htree
      | error settled =>
        rw [take_of_feed_error hfeed, List.singleton_append] at h
        obtain ⟨hdone, hrest⟩ := List.cons.inj h
        obtain ⟨rfl, hrepair⟩ := repair_eq_dropped hdone
        rw [hrepair] at hrest
        have hsettled : settled = σ.settle (.token t.kind) :=
          (Stack.path_of_feed_error hσ hfeed).2.2
        refine ⟨[], ps, σ, by rw [misfit?, hfeed], rfl, noStray_nil, rfl, ?_, ?_⟩
        · rw [← hsettled]
          exact hrest.symm
        · rw [recoverFrom_token, take_of_feed_error hfeed, hrepair, ← hsettled]

/-- Where a first token is dropped from pieces, it leaves no trace. -/
def DropsCleanly (ps : List Piece) : Prop :=
  ∀ σ t after, misfit? [] ps = some (σ, t, after) → LeavesNoTrace σ t (tokensOf after)

end Parsing

/-! ## Programs and messages -/

/-- What a parse gives, up to places and the texts of initializers: the program and the messages. -/
def Parsed.outcome (r : Parsed) : Option Program × List String :=
  (r.program.map Program.bare, r.diagnostics.map (·.message))

theorem outcome_ofPieces {source source' : List Char} {ps ps' : List Piece}
    {g : List String → List String}
    (htree : (Parsing.recover ps).tree.map Tree.bare = (Parsing.recover ps').tree.map Tree.bare)
    (hmessages : (Parsing.recover ps).diagnostics.map (·.message) =
      g ((Parsing.recover ps').diagnostics.map (·.message))) :
    (Parsed.ofPieces source ps).map Parsed.outcome =
      (Parsed.ofPieces source' ps').map fun r => (r.outcome.1, g r.outcome.2) := by
  rw [Parsed.ofPieces_of_recover rfl, Parsed.ofPieces_of_recover rfl]
  rcases (@agree_program source source' _ _ htree).cases with ⟨e, hp, hq⟩ | ⟨p, q, hp, hq, hsame⟩
  · rw [hp, hq]
    rfl
  · rw [hp, hq]
    show Except.ok (p.map Program.bare, (Parsing.recover ps).diagnostics.map (·.message)) =
      Except.ok (q.map Program.bare, g ((Parsing.recover ps').diagnostics.map (·.message)))
    rw [hsame, hmessages]

theorem exists_mismatch_eq (found : String) (expected : List Lookahead) :
    ∃ rest, Repair.mismatch found expected = "mismatched input " ++ (found ++ rest) := by
  refine ⟨" expecting \x7b" ++ (", ".intercalate (expected.map (·.label)) ++ "\x7d"), ?_⟩
  show "mismatched input " ++ found ++ " expecting \x7b" ++
    ", ".intercalate (expected.map (·.label)) ++ "\x7d" = _
  simp only [String.append_assoc]

theorem mismatch_not_atEnd (t : Token) (expected : List Lookahead) :
    ¬ Parsing.AtEnd (Repair.mismatch (Repair.shown t) expected) := by
  obtain ⟨rest, hrest⟩ := exists_mismatch_eq (Repair.shown t) expected
  rw [hrest]
  rintro (⟨mark, h⟩ | ⟨expected', h⟩)
  · have hstart := congrArg (fun s => s.toList.take 4) h
    simp only [toString, String.append_assoc, String.toList_append] at hstart
    simp at hstart
  · obtain ⟨rest', hrest'⟩ := exists_mismatch_eq "<EOF>" expected'
    rw [hrest', String.append_right_inj, Repair.shown] at h
    have hstart := congrArg (fun s => s.toList.take 1) h
    simp only [String.append_assoc, String.toList_append] at hstart
    simp at hstart

theorem not_mem_diagnostics_after {source : List Char} {before after : List Piece} {t : Token}
    (h : pieces source = before ++ .token t :: after) (last : Span) (σ : Automaton.Stack)
    (expected : List Lookahead) :
    Repair.syntaxError t.start (Repair.mismatch (Repair.shown t) expected) ∉
      (Parsing.recoverFrom last σ after).repairs.flatMap Repair.diagnostics := by
  intro hmem
  rcases Parsing.of_mem_diagnostics_recoverFrom hmem with hcode | ⟨t', ht', hplace⟩ | ⟨-, hend⟩
  · cases hcode
  · apply start_ne_of_mem_after h ht'
    rw [Repair.syntaxError, Repair.syntaxError, Diagnostic.mk.injEq] at hplace
    obtain ⟨-, -, hline, hcolumn⟩ := hplace
    exact ⟨Int.ofNat.inj (Option.some.inj hline).symm, Int.ofNat.inj (Option.some.inj hcolumn).symm⟩
  · exact mismatch_not_atEnd t expected hend

/-- Where the first error of a source makes a recovering parse drop a token that leaves no trace,
the program is the one of the source in which the token is overwritten by spaces, up to places and
the texts of initializers, and so are the messages, after the one on the token. -/
theorem ofSource_of_dropped {source : List Char} {t : Token} {expected : List Lookahead}
    {rest : List Repair}
    (hdrop : (Parsing.recover (pieces source)).repairs = .dropped t expected :: rest)
    (hclean : Parsing.DropsCleanly (pieces source)) :
    (Parsed.ofSource source).map Parsed.outcome =
      (Parsed.ofSource (overwritten source t)).map fun r =>
        (r.outcome.1, Repair.mismatch (Repair.shown t) expected :: r.outcome.2) := by
  obtain ⟨before, after, σ, hmisfit, hps, hstray, hfeed, hrest, htree⟩ :=
    Parsing.recoverFrom_of_dropped .nil hdrop
  have hσ := (Automaton.Stack.path_feedAll .nil hfeed).1
  have hwith (last : Span) :=
    Parsing.recoverFrom_of_leavesNoTrace hσ (hclean σ t after hmisfit) last
  have hwithout : Parsing.recover (pieces (overwritten source t)) =
      Parsing.recoverFrom (Parsing.lastSpan ⟨.start, .start⟩ (solid before)) σ after := by
    have hfeed' : Automaton.Stack.feedAll [] (tokensOf (solid before)) = some σ := by
      rw [tokensOf_solid, hfeed]
    rw [Parsing.recover, ← Parsing.recoverFrom_solid, solid_pieces_overwritten hps hstray,
      Parsing.recoverFrom_append (noStray_solid hstray) hfeed', Parsing.recoverFrom_solid]
  rw [hwith] at hrest htree
  apply outcome_ofPieces
  · have hbare := congrArg Recovered.tree
      (@Parsing.recoverFrom_of_bare_eq t.span
        (Parsing.lastSpan ⟨.start, .start⟩ (solid before)) σ σ after after rfl rfl)
    rw [hwithout]
    show (Parsing.recoverFrom _ [] (pieces source)).tree.map _ = _
    rw [htree]
    exact hbare
  · have hreport : Repair.report (Parsing.recover (pieces source)).repairs =
        Repair.syntaxError t.start (Repair.mismatch (Repair.shown t) expected) ::
          Repair.report (Parsing.recoverFrom t.span σ after).repairs := by
      rw [hdrop, hrest]
      exact Repair.report_cons_of_not_mem rfl (not_mem_diagnostics_after hps t.span σ expected)
    rw [Recovered.diagnostics, hreport, List.map_cons, hwithout, Recovered.diagnostics,
      Parsing.messages_recoverFrom t.span (Parsing.lastSpan ⟨.start, .start⟩ (solid before))]
    rfl

/-- A source with a comma in a group that is not closed. -/
def commaInOpenGroup : List Char :=
  "int x = (1,; int y".toList

def openGroupComma : Token :=
  ⟨.comma, ",", ⟨1, 11, 10⟩, ⟨1, 12, 11⟩⟩

theorem comma_leaves_no_trace : ∃ expected rest,
    (Parsing.recover (pieces commaInOpenGroup)).repairs = .dropped openGroupComma expected :: rest ∧
    Parsing.DropsCleanly (pieces commaInOpenGroup) ∧
    (Parsed.ofSource commaInOpenGroup).map Parsed.outcome =
      (Parsed.ofSource (overwritten commaInOpenGroup openGroupComma)).map fun r =>
        (r.outcome.1, Repair.mismatch (Repair.shown openGroupComma) expected :: r.outcome.2) := by
  have hdrop : (Parsing.recover (pieces commaInOpenGroup)).repairs.head? =
      some (.dropped openGroupComma [.token .rpar]) := by decide +kernel
  obtain ⟨rest, hrest⟩ := List.head?_eq_some_iff.mp hdrop
  have hcheck : (Parsing.misfit? [] (pieces commaInOpenGroup)).all (fun x =>
      match tokensOf x.2.2 with
      | next :: _ => decide ((Parsing.take next x.1).1 = [.inserted .paren next])
      | [] => false) = true := by decide +kernel
  have hclean : Parsing.DropsCleanly (pieces commaInOpenGroup) := by
    intro σ t after hmisfit
    rw [hmisfit, Option.all_some] at hcheck
    right
    split
    · next next w hnext =>
      simp only [hnext, decide_eq_true_eq] at hcheck
      exact ⟨_, hcheck⟩
    · next hnil => simp [hnil] at hcheck
  exact ⟨_, rest, hrest, hclean, ofSource_of_dropped hrest hclean⟩

/-- A source with a comma in a group, before an operator. -/
def commaInGroup : List Char :=
  "int x = (1 , + 2);".toList

def groupComma : Token :=
  ⟨.comma, ",", ⟨1, 12, 11⟩, ⟨1, 13, 12⟩⟩

/-- A comma that is dropped may leave a trace: it has completed the group before the operator. -/
theorem comma_leaves_trace : ∃ expected rest,
    (Parsing.recover (pieces commaInGroup)).repairs = .dropped groupComma expected :: rest ∧
    (Parsed.ofSource commaInGroup).toOption.map (fun r => r.diagnostics.tail.map (·.message)) ≠
      (Parsed.ofSource (overwritten commaInGroup groupComma)).toOption.map
        fun r => r.diagnostics.map (·.message) := by
  have hdrop : (Parsing.recover (pieces commaInGroup)).repairs.head? =
      some (.dropped groupComma [.token .rpar]) := by decide +kernel
  obtain ⟨rest, hrest⟩ := List.head?_eq_some_iff.mp hdrop
  refine ⟨_, rest, hrest, ?_⟩
  decide +kernel

end Sema
