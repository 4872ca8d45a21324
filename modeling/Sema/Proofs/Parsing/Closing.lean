import Sema.Proofs.Automaton.Lookaheads
import Sema.Proofs.Parsing.Outcomes
import Sema.Proofs.Parsing.Recovery
import Sema.Proofs.Parsing.Reports
import Sema.Proofs.Syntax.Outcomes

/-!
# Closing at the end of the input

Where the only error of a text is that it ends too early, a recovering parse puts the missing marks
after it. It takes the first mark that fits, and stops after a number of rounds. This finds what is
missing whenever there is something that completes the text: no two marks fit at the same place, and
where one fits the input does not end well, so the marks that complete a text are the only ones
(`Completes.unique`). The rounds are enough for one mark less than their number
(`closeWithin_eq_some_iff`).
-/

namespace Sema

/-- The tokens with the marks after them are a program, wherever the marks are said to stand. -/
def Completes (w : List Token) (c : List Closer) : Prop :=
  ∃ (place : Span) (tree : Tree),
    tree.Derives (.phrase .program) (w ++ c.map fun mark => mark.token place)

namespace Parsing

open Automaton

theorem exists_finish_nil : ∃ tree, Stack.finish [] = .ok tree := by
  have hok : (Stack.finish []).isOk = true := by decide +kernel
  cases hfinish : Stack.finish [] with
  | ok tree => exact ⟨tree, rfl⟩
  | error settled =>
    rw [hfinish] at hok
    cases hok

/-! ## Marks that close a stack -/

/-- The marks fit on the stack one after the other, and the input then ends well. -/
def Closes (place : Span) (σ : Stack) (c : List Closer) (tree : Tree) : Prop :=
  ∃ τ, σ.feedAll (c.map fun mark => mark.token place) = some τ ∧ τ.finish = .ok tree

theorem closes_nil {place : Span} {σ : Stack} {tree : Tree} :
    Closes place σ [] tree ↔ σ.finish = .ok tree := by
  simp [Closes]

theorem closes_cons {place : Span} {σ : Stack} {k : Closer} {c : List Closer} {tree : Tree} :
    Closes place σ (k :: c) tree ↔
      ∃ next, σ.feed (k.token place) = .ok next ∧ Closes place next c tree := by
  simp only [Closes, List.map_cons, Stack.feedAll_cons_eq_some]
  grind

theorem findSome?_mark_eq_some_iff {place : Span} {σ fed : Stack} {k : Closer}
    (hσ : Stack.Path σ) :
    (closers.findSome? fun k => (σ.feed (k.token place)).toOption.map (k, ·)) = some (k, fed) ↔
      σ.feed (k.token place) = .ok fed := by
  have hfound : ∀ {k' fed'}, (closers.findSome? fun k =>
      (σ.feed (k.token place)).toOption.map (k, ·)) = some (k', fed') →
      σ.feed (k'.token place) = .ok fed' := by
    intro k' fed' h
    obtain ⟨mark, -, hmark⟩ := List.exists_of_findSome?_eq_some h
    obtain ⟨fed, hfed, heq⟩ := Option.map_eq_some_iff.mp hmark
    cases heq
    exact eq_ok_of_toOption hfed
  refine ⟨hfound, fun h => ?_⟩
  cases hfind : closers.findSome? fun k => (σ.feed (k.token place)).toOption.map (k, ·) with
  | none =>
    have hnone := List.findSome?_eq_none_iff.mp hfind k (mem_closers k)
    simp [h, Except.toOption] at hnone
  | some found =>
    obtain ⟨k', fed'⟩ := found
    have h' := hfound hfind
    obtain rfl := Stack.mark_eq_of_feed hσ h h'
    rw [h] at h'
    cases h'
    rfl

/-- In `n` rounds, closing finds the marks that close the stack if there are fewer than `n`. -/
theorem closeWithin_eq_some_iff {place : Span} {n : Nat} {σ : Stack} {c : List Closer} {tree : Tree}
    (hσ : Stack.Path σ) :
    closeWithin place n σ = some (c, tree) ↔ c.length < n ∧ Closes place σ c tree := by
  induction n generalizing σ c with
  | zero => simp [closeWithin]
  | succ n ih =>
    rw [closeWithin]
    cases hfinish : σ.finish with
    | ok done =>
      cases c with
      | nil => simp [closes_nil, hfinish]
      | cons k c =>
        have hnot : ¬ Closes place σ (k :: c) tree := by
          rw [closes_cons]
          rintro ⟨next, hfeed, -⟩
          exact Stack.not_finish_of_feed hσ hfeed hfinish
        simp [hnot]
    | error settled =>
      cases c with
      | nil =>
        simp only [closes_nil, hfinish]
        split <;> simp
      | cons k c =>
        rw [closes_cons]
        constructor
        · intro h
          dsimp only at h
          split at h
          · next k' fed hmark =>
            obtain ⟨⟨later, tree'⟩, hlater, heq⟩ := Option.map_eq_some_iff.mp h
            cases heq
            have hfeed := (findSome?_mark_eq_some_iff hσ).mp hmark
            obtain ⟨hlength, hcloses⟩ := (ih (Stack.path_of_feed_ok hσ hfeed).1).mp hlater
            exact ⟨Nat.succ_lt_succ hlength, fed, hfeed, hcloses⟩
          · cases h
        · rintro ⟨hlength, fed, hfeed, hcloses⟩
          have hlater := (ih (Stack.path_of_feed_ok hσ hfeed).1).mpr
            ⟨Nat.lt_of_succ_lt_succ hlength, hcloses⟩
          simp [(findSome?_mark_eq_some_iff hσ).mpr hfeed, hlater]

theorem closes_settled_iff {place : Span} {σ settled : Stack} {c : List Closer} {tree : Tree}
    (hσ : Stack.Path σ) (h : σ.finish = .error settled) :
    Closes place settled c tree ↔ Closes place σ c tree := by
  cases c with
  | nil => simp [closes_nil, h, finish_of_finish_error hσ h]
  | cons k c =>
    have hsettle : settled = σ.settle .endOfInput := (Stack.path_of_finish_error hσ h).2.2
    have hreduces : Stack.Reduces .endOfInput σ settled :=
      hsettle ▸ Stack.reduces_settle .endOfInput σ
    simp only [closes_cons, Stack.feed_mark_iff hσ hreduces]

/-! ## Marks that complete a text -/

theorem closes_iff_derives {place : Span} {w : List Token} {τ : Stack} {c : List Closer}
    {tree : Tree} (hw : Stack.feedAll [] w = some τ) :
    Closes place τ c tree ↔
      tree.Derives (.phrase .program) (w ++ c.map fun mark => mark.token place) := by
  rw [derives_program_iff]
  constructor
  · rintro ⟨τ', hτ', hfinish⟩
    exact ⟨τ', Stack.feedAll_append_eq_some.mpr ⟨τ, hw, hτ'⟩, hfinish⟩
  · rintro ⟨τ', hτ', hfinish⟩
    obtain ⟨mid, hmid, hrest⟩ := Stack.feedAll_append_eq_some.mp hτ'
    rw [hw] at hmid
    cases hmid
    exact ⟨τ', hrest, hfinish⟩

theorem exists_derives_elsewhere {w : List Token} {c : List Closer} {place : Span} {tree : Tree}
    (h : tree.Derives (.phrase .program) (w ++ c.map fun mark => mark.token place))
    (place' : Span) : ∃ tree' : Tree, tree'.bare = tree.bare ∧
      tree'.Derives (.phrase .program) (w ++ c.map fun mark => mark.token place') := by
  have hbare : (w ++ c.map fun mark => mark.token place').map Token.bare =
      tree.leaves.map Token.bare := by
    rw [h.leaves]
    simp [Closer.bare_token]
  obtain ⟨tree', hsame, hleaves, hsymbol, hwf⟩ := tree.exists_with_leaves _ hbare
  exact ⟨tree', hsame, hwf h.wellFormed, hsymbol.trans h.symbol, hleaves⟩

theorem Closes.unique {place : Span} {σ : Stack} {c c' : List Closer} {tree tree' : Tree}
    (hσ : Stack.Path σ) (h : Closes place σ c tree) (h' : Closes place σ c' tree') : c' = c := by
  have hlong : closeWithin place (c.length + c'.length + 1) σ = some (c, tree) :=
    (closeWithin_eq_some_iff hσ).mpr ⟨by omega, h⟩
  have hlong' : closeWithin place (c.length + c'.length + 1) σ = some (c', tree') :=
    (closeWithin_eq_some_iff hσ).mpr ⟨by omega, h'⟩
  rw [hlong] at hlong'
  cases hlong'
  rfl

end Parsing

namespace Completes

variable {w : List Token} {c c' : List Closer}

theorem derives (h : Completes w c) (place : Span) : ∃ tree : Tree,
    tree.Derives (.phrase .program) (w ++ c.map fun mark => mark.token place) := by
  obtain ⟨place', tree, htree⟩ := h
  obtain ⟨tree', -, htree'⟩ := Parsing.exists_derives_elsewhere htree place
  exact ⟨tree', htree'⟩

/-- A text is completed by one sequence of marks only. -/
theorem unique (h : Completes w c) (h' : Completes w c') : c' = c := by
  obtain ⟨tree, htree⟩ := h.derives .nowhere
  obtain ⟨tree', htree'⟩ := h'.derives .nowhere
  obtain ⟨τ', hfeed, -⟩ := Parsing.derives_program_iff.mp htree
  obtain ⟨τ, hτ, -⟩ := Automaton.Stack.feedAll_append_eq_some.mp hfeed
  exact Parsing.Closes.unique (Automaton.Stack.path_feedAll .nil hτ).1
    ((Parsing.closes_iff_derives hτ).mpr htree) ((Parsing.closes_iff_derives hτ).mpr htree')

end Completes

theorem ShortLiterals.append_marks {w : List Token} (h : ShortLiterals w) (c : List Closer)
    (place : Span) : ShortLiterals (w ++ c.map fun mark => mark.token place) := by
  intro token hmem hkind
  rcases List.mem_append.mp hmem with hmem | hmem
  · exact h token hmem hkind
  · obtain ⟨mark, -, rfl⟩ := List.mem_map.mp hmem
    cases mark <;> cases hkind

theorem tokensOf_marks (c : List Closer) (place : Span) :
    tokensOf (c.map fun mark => .token (mark.token place)) =
      c.map fun mark => mark.token place := by
  have h := tokensOf_map_token (c.map fun mark => mark.token place)
  rwa [List.map_map] at h

theorem noStray_marks (c : List Closer) (place : Span) :
    NoStray (c.map fun mark => .token (mark.token place)) := by
  have h := noStray_map_token (c.map fun mark => mark.token place)
  rwa [List.map_map] at h

/-! ## Texts that end too early -/

namespace Parsing

open Automaton

theorem recover_of_unexpectedEnd {ps : List Piece} {pos : Position} {expected : List Lookahead}
    (h : strict ps = .error (.unexpectedEnd pos expected)) :
    ∃ last, (tokensOf ps).getLast? = some last ∧ pos = last.start ∧
      (∀ c tree, c.length < closingRounds →
        tree.Derives (.phrase .program) (tokensOf ps ++ c.map fun mark => mark.token last.span) →
        recover ps = ⟨[.closed c pos], some tree⟩) ∧
      ((∀ c, Completes (tokensOf ps) c → closingRounds ≤ c.length) →
        recover ps = ⟨[.abandoned pos expected], none⟩) := by
  obtain ⟨hps, rfl, τ, settled, hfeed, hfinish, rfl⟩ :=
    @feedAll_of_unexpectedEnd ⟨.start, .start⟩ [] ps pos expected h
  have hτ := (Stack.path_feedAll .nil hfeed).1
  have hsettled := (Stack.path_of_finish_error hτ hfinish).1
  obtain ⟨last, hlast⟩ : ∃ last, (tokensOf ps).getLast? = some last := by
    cases hw : (tokensOf ps).getLast? with
    | some last => exact ⟨last, rfl⟩
    | none =>
      rw [List.getLast?_eq_none_iff.mp hw] at hfeed
      cases hfeed
      obtain ⟨tree, hempty⟩ := exists_finish_nil
      rw [hfinish] at hempty
      cases hempty
  have hspan : lastSpan ⟨.start, .start⟩ ps = last.span := by simp [lastSpan, hlast]
  have hrecover : recover ps = close last.span τ := by
    have hrest := @recoverFrom_append ⟨.start, .start⟩ [] τ ps hps hfeed []
    rw [List.append_nil, hspan] at hrest
    exact hrest
  have hclosed : ∀ {c tree}, closeWithin last.span closingRounds settled = some (c, tree) ↔
      c.length < closingRounds ∧
        tree.Derives (.phrase .program) (tokensOf ps ++ c.map fun mark => mark.token last.span) := by
    intro c tree
    rw [closeWithin_eq_some_iff hsettled, closes_settled_iff hτ hfinish, closes_iff_derives hfeed]
  rw [hspan]
  refine ⟨last, hlast, rfl, fun c tree hlength htree => ?_, fun hlong => ?_⟩
  · simp only [hrecover, close, hfinish, hclosed.mpr ⟨hlength, htree⟩]
  · have hnone : closeWithin last.span closingRounds settled = none := by
      cases hwithin : closeWithin last.span closingRounds settled with
      | none => rfl
      | some found =>
        obtain ⟨hlength, htree⟩ := hclosed.mp hwithin
        have := hlong found.1 ⟨_, _, htree⟩
        omega
    simp only [hrecover, close, hfinish, hnone]

end Parsing

/-- Where the only error of a text is that it ends too early, there is at most one sequence of
closing marks that completes it. If it has at most 63 marks, a recovering parse gives the program of
the completed text, up to places and the texts of initializers, and reports each kind of mark that
is missing once, in the order of the marks, at the last token. If there is none or it is longer,
there is no program and one report on the end of the input. -/
theorem ofPieces_of_unexpectedEnd {source : List Char} {ps : List Piece} {pos : Position}
    {expected : List Lookahead}
    (h : Program.ofPieces source ps = .error (.parse (.unexpectedEnd pos expected))) :
    (∃ last, (tokensOf ps).getLast? = some last ∧ pos = last.start) ∧
    (∀ c, Completes (tokensOf ps) c →
      (∀ c', Completes (tokensOf ps) c' → c' = c) ∧
      (ShortLiterals (tokensOf ps) →
        ((∃ p ds, Parsed.ofPieces source ps = .ok ⟨some p, ds⟩) ↔ c.length ≤ 63)) ∧
      (c.length ≤ 63 → ∀ (source' : List Char) (place : Span),
        SameOutcome (Parsed.ofPieces source ps) (c.eraseDups.map (Repair.missingAtEnd pos))
          (Program.ofPieces source' (ps ++ c.map fun mark => .token (mark.token place))))) ∧
    ((∀ c, Completes (tokensOf ps) c → 63 < c.length) →
      Parsed.ofPieces source ps =
        .ok ⟨none, [Repair.syntaxError pos (Repair.mismatch "<EOF>" expected)]⟩) := by
  have hstrict := Program.ofPieces_eq_error_parse h
  obtain ⟨last, hlast, hpos, hclosed, habandoned⟩ := Parsing.recover_of_unexpectedEnd hstrict
  have hps : NoStray ps :=
    (@Parsing.feedAll_of_unexpectedEnd ⟨.start, .start⟩ [] ps pos expected hstrict).1
  have hnone : (∀ c, Completes (tokensOf ps) c → 63 < c.length) → Parsed.ofPieces source ps =
      .ok ⟨none, [Repair.syntaxError pos (Repair.mismatch "<EOF>" expected)]⟩ := by
    intro hlong
    rw [Parsed.ofPieces_of_recover (habandoned hlong)]
    rfl
  refine ⟨⟨last, hlast, hpos⟩, fun c hc => ⟨fun c' => hc.unique, fun hshort => ⟨?_, ?_⟩, ?_⟩, hnone⟩
  · rintro ⟨p, ds, hp⟩
    rcases Nat.lt_or_ge 63 c.length with hlong | hlength
    · rw [hnone fun c' hc' => hc.unique hc' ▸ hlong] at hp
      cases hp
    · exact hlength
  · intro hlength
    obtain ⟨tree, htree⟩ := hc.derives last.span
    obtain ⟨p, hp⟩ := (exists_reading_iff source htree).mpr (hshort.append_marks c last.span)
    refine ⟨p, Repair.report [.closed c pos], ?_⟩
    rw [Parsed.ofPieces_of_recover (hclosed c tree (Nat.lt_succ_of_le hlength) htree)]
    simp [Recovered.program, Recovered.diagnostics, hp, Functor.map, Except.map]
  · intro hlength source' place
    obtain ⟨tree, htree⟩ := hc.derives last.span
    obtain ⟨tree', hbare, htree'⟩ := Parsing.exists_derives_elsewhere htree place
    have hcompleted : Parsing.strict (ps ++ c.map fun mark => .token (mark.token place)) =
        .ok tree' := by
      rw [Parsing.strict_eq_ok_iff, noStray_append, tokensOf_append, tokensOf_marks]
      exact ⟨⟨hps, noStray_marks c place⟩, htree'⟩
    rw [← Repair.report_closed]
    exact sameOutcome_of_bare_eq (hclosed c tree (Nat.lt_succ_of_le hlength) htree) htree hcompleted
      hbare.symm

/-- A call that is not closed, in a function that is not closed. -/
def openCall : List Char :=
  "f()\x7bg(1".toList

def openCallMarks : List Closer :=
  [.paren, .semicolon, .brace]

theorem openCall_closed : ∃ pos expected p,
    Program.ofSource openCall = .error (.parse (.unexpectedEnd pos expected)) ∧
    Completes (tokensOf (pieces openCall)) openCallMarks ∧
    Parsed.ofSource openCall = .ok ⟨some p, openCallMarks.map (Repair.missingAtEnd pos)⟩ := by
  have hend : (match Parsing.strict (pieces openCall) with
      | .error (.unexpectedEnd _ _) => true
      | _ => false) = true := by decide +kernel
  have hcomplete : (Parsing.strict ((tokensOf (pieces openCall) ++
      openCallMarks.map fun mark => mark.token .nowhere).map .token)).isOk = true := by
    decide +kernel
  have hshort : ShortLiterals (tokensOf (pieces openCall)) := by decide +kernel
  split at hend
  · next pos expected hstrict =>
    have herror : Program.ofPieces openCall (pieces openCall) =
        .error (.parse (.unexpectedEnd pos expected)) := ofSource_of_strict_error hstrict
    have hc : Completes (tokensOf (pieces openCall)) openCallMarks := by
      cases htree : Parsing.strict ((tokensOf (pieces openCall) ++
          openCallMarks.map fun mark => mark.token .nowhere).map .token) with
      | error e =>
        rw [htree] at hcomplete
        cases hcomplete
      | ok tree => exact ⟨.nowhere, tree, Parsing.strict_map_token.mp htree⟩
    obtain ⟨-, hcloses, -⟩ := ofPieces_of_unexpectedEnd herror
    obtain ⟨-, hiff, hsame⟩ := hcloses openCallMarks hc
    obtain ⟨p, ds, hp⟩ := (hiff hshort).mpr (by decide)
    rcases hsame (by decide) openCall .nowhere with ⟨p', q, hp', -, -⟩ | ⟨e, he, -⟩
    · exact ⟨pos, expected, p', herror, hc, hp'⟩
    · rw [hp] at he
      cases he
  · cases hend

end Sema
