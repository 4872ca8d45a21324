import Sema.Proofs.Parsing.Agreement
import Sema.Proofs.Parsing.Programs

/-!
# Parsing up to a place

The stack after tokens that all fit (`feedAll`). What a parse does with pieces that start with such
tokens is what it does, from that stack, with the rest (`strictFrom_append`, `recoverFrom_append`).
So a parse without an error can be stopped at any place (`exists_feedAll_of_strictFrom`), and one
whose only error is at the end of the input has all its tokens on the stack
(`feedAll_of_unexpectedEnd`). A recovering parse can be stopped at any place of any text
(`takeAll`, `exists_recoverFrom_append`).
-/

namespace Sema

/-- Parses the pieces of `source` that are given, repairing errors. -/
def Parsed.ofPieces (source : List Char) (ps : List Piece) : Reading Parsed := do
  let recovered := Parsing.recover ps
  return ⟨← recovered.program source, recovered.diagnostics⟩

@[simp] theorem tokensOf_append (ps qs : List Piece) :
    tokensOf (ps ++ qs) = tokensOf ps ++ tokensOf qs :=
  List.filterMap_append

theorem noStray_append {ps qs : List Piece} :
    NoStray (ps ++ qs) ↔ NoStray ps ∧ NoStray qs := by
  simp only [NoStray, List.mem_append, or_imp, forall_and]

theorem exists_first_token {ps : List Piece} {t : Token} {w : List Token}
    (h : tokensOf ps = t :: w) :
    ∃ qs rest, ps = qs ++ .token t :: rest ∧ tokensOf qs = [] ∧ tokensOf rest = w := by
  obtain ⟨qs, p, rest, rfl, hqs, hp, hrest⟩ := List.filterMap_eq_cons_iff.mp h
  cases p with
  | token t' =>
    cases hp
    exact ⟨qs, rest, rfl, List.filterMap_eq_nil_iff.mpr hqs, hrest⟩
  | ignored cs => cases hp
  | stray c pos => cases hp

namespace Automaton.Stack

/-- The stack after tokens, if all of them fit. -/
def feedAll (σ : Stack) : List Token → Option Stack
  | [] => some σ
  | t :: w => (feed t σ).toOption.bind fun next => feedAll next w

@[simp] theorem feedAll_nil (σ : Stack) : σ.feedAll [] = some σ := rfl

theorem feedAll_cons_of_feed {σ next : Stack} {t : Token} (h : feed t σ = .ok next)
    (w : List Token) : σ.feedAll (t :: w) = next.feedAll w := by
  rw [feedAll, h]
  rfl

theorem feedAll_cons_eq_some {σ τ : Stack} {t : Token} {w : List Token} :
    σ.feedAll (t :: w) = some τ ↔ ∃ next, feed t σ = .ok next ∧ next.feedAll w = some τ := by
  rw [feedAll]
  cases feed t σ with
  | ok next => simp [Except.toOption]
  | error settled => simp [Except.toOption]

theorem feedAll_append_eq_some {σ τ : Stack} {u v : List Token} :
    σ.feedAll (u ++ v) = some τ ↔ ∃ mid, σ.feedAll u = some mid ∧ mid.feedAll v = some τ := by
  induction u generalizing σ with
  | nil => simp
  | cons t u ih =>
    rw [List.cons_append, feedAll_cons_eq_some]
    simp only [ih, feedAll_cons_eq_some]
    grind

theorem path_feedAll {σ τ : Stack} {w : List Token} (hσ : Path σ) (h : σ.feedAll w = some τ) :
    Path τ ∧ leaves τ = leaves σ ++ w := by
  induction w generalizing σ with
  | nil =>
    cases h
    exact ⟨hσ, by simp⟩
  | cons t w ih =>
    obtain ⟨next, hfeed, hrest⟩ := feedAll_cons_eq_some.mp h
    obtain ⟨hnext, hleaves⟩ := path_of_feed_ok hσ hfeed
    obtain ⟨hτ, hleaves'⟩ := ih hnext hrest
    exact ⟨hτ, by rw [hleaves', hleaves, List.append_assoc, List.singleton_append]⟩

end Automaton.Stack

namespace Parsing

open Automaton

/-- The place of the last token of pieces, or `last` where there is none. -/
def lastSpan (last : Span) (ps : List Piece) : Span :=
  ((tokensOf ps).getLast?.map Token.span).getD last

@[simp] theorem lastSpan_nil (last : Span) : lastSpan last [] = last := rfl

@[simp] theorem lastSpan_ignored (last : Span) (cs : List Char) (ps : List Piece) :
    lastSpan last (.ignored cs :: ps) = lastSpan last ps := rfl

@[simp] theorem lastSpan_token (last : Span) (t : Token) (ps : List Piece) :
    lastSpan last (.token t :: ps) = lastSpan t.span ps := by
  simp only [lastSpan, tokensOf_token]
  cases tokensOf ps with
  | nil => rfl
  | cons s w => simp [List.getLast?_eq_some_getLast]

/-! ## The rest of a parse -/

/-- Strict parsing goes on after tokens that fit. -/
theorem strictFrom_append {last : Span} {σ τ : Stack} {ps : List Piece} (hps : NoStray ps)
    (h : σ.feedAll (tokensOf ps) = some τ) (qs : List Piece) :
    strictFrom last.start σ (ps ++ qs) = strictFrom (lastSpan last ps).start τ qs := by
  induction ps generalizing last σ with
  | nil =>
    cases h
    rfl
  | cons p ps ih =>
    cases p with
    | ignored cs => exact ih (by simpa using hps) h
    | stray c pos => simp at hps
    | token t =>
      obtain ⟨next, hfeed, hrest⟩ := Stack.feedAll_cons_eq_some.mp h
      rw [List.cons_append, strictFrom, hfeed, lastSpan_token]
      exact @ih t.span next (by simpa using hps) hrest

/-- A recovering parse repairs nothing as long as the tokens fit. -/
theorem recoverFrom_append {last : Span} {σ τ : Stack} {ps : List Piece} (hps : NoStray ps)
    (h : σ.feedAll (tokensOf ps) = some τ) (qs : List Piece) :
    recoverFrom last σ (ps ++ qs) = recoverFrom (lastSpan last ps) τ qs := by
  induction ps generalizing last σ with
  | nil =>
    cases h
    rfl
  | cons p ps ih =>
    cases p with
    | ignored cs => exact ih (by simpa using hps) h
    | stray c pos => simp at hps
    | token t =>
      obtain ⟨next, hfeed, hrest⟩ := Stack.feedAll_cons_eq_some.mp h
      have hlater := @ih t.span next (by simpa using hps) hrest
      rw [List.cons_append, recoverFrom_token, take_of_feed_ok hfeed, hlater, lastSpan_token]
      rfl

/-- The stack after tokens, with a repair where one does not fit. -/
def takeAll (σ : Stack) (w : List Token) : Stack :=
  w.foldl (fun σ t => (take t σ).2) σ

/-- A recovering parse goes on after any pieces from the stack that they leave, and what it has
repaired by then stays. -/
theorem exists_recoverFrom_append (last : Span) (σ : Stack) (ps : List Piece) :
    ∃ done, ∀ qs, recoverFrom last σ (ps ++ qs) =
      ⟨done ++ (recoverFrom (lastSpan last ps) (takeAll σ (tokensOf ps)) qs).repairs,
        (recoverFrom (lastSpan last ps) (takeAll σ (tokensOf ps)) qs).tree⟩ := by
  induction ps generalizing last σ with
  | nil => exact ⟨[], fun qs => rfl⟩
  | cons p ps ih =>
    cases p with
    | ignored cs => exact ih last σ
    | stray c pos =>
      obtain ⟨done, hdone⟩ := ih last σ
      refine ⟨.skipped c pos :: done, fun qs => ?_⟩
      rw [List.cons_append, recoverFrom, hdone qs]
      rfl
    | token t =>
      obtain ⟨done, hdone⟩ := ih t.span (take t σ).2
      refine ⟨(take t σ).1 ++ done, fun qs => ?_⟩
      rw [List.cons_append, recoverFrom_token, hdone qs, lastSpan_token, List.append_assoc]
      rfl

theorem tree_recover (ps : List Piece) :
    (recover ps).tree =
      (close (lastSpan ⟨.start, .start⟩ ps) (takeAll [] (tokensOf ps))).tree := by
  obtain ⟨done, hdone⟩ := exists_recoverFrom_append ⟨.start, .start⟩ [] ps
  have hwhole := hdone []
  rw [List.append_nil] at hwhole
  rw [recover, hwhole]
  rfl

/-! ## Parses that can be stopped -/

theorem strictFrom_eq_ok_iff {last : Span} {σ : Stack} {ps : List Piece} {tree : Tree} :
    strictFrom last.start σ ps = .ok tree ↔
      NoStray ps ∧ ∃ τ, σ.feedAll (tokensOf ps) = some τ ∧ τ.finish = .ok tree := by
  constructor
  · intro h
    induction ps generalizing last σ with
    | nil =>
      rw [strictFrom] at h
      cases hfinish : σ.finish with
      | error settled => simp [hfinish] at h
      | ok done =>
        rw [hfinish] at h
        cases h
        exact ⟨noStray_nil, σ, rfl, hfinish⟩
    | cons p ps ih =>
      cases p with
      | ignored cs => simpa using ih h
      | stray c pos => cases h
      | token t =>
        rw [strictFrom] at h
        cases hfeed : σ.feed t with
        | error settled => simp [hfeed] at h
        | ok next =>
          rw [hfeed] at h
          rw [noStray_token, tokensOf_token, Stack.feedAll_cons_of_feed hfeed]
          exact @ih t.span next h
  · intro ⟨hps, τ, hfeed, hfinish⟩
    have happend := @strictFrom_append last _ _ _ hps hfeed []
    rw [List.append_nil, strictFrom, hfinish] at happend
    exact happend

/-- Where strict parsing finds no error, the tokens up to any place fit. -/
theorem exists_feedAll_of_strictFrom {last : Span} {σ : Stack} {ps qs : List Piece} {tree : Tree}
    (h : strictFrom last.start σ (ps ++ qs) = .ok tree) :
    NoStray ps ∧ ∃ τ, σ.feedAll (tokensOf ps) = some τ := by
  obtain ⟨hstray, τ, hfeed, -⟩ := strictFrom_eq_ok_iff.mp h
  rw [tokensOf_append] at hfeed
  obtain ⟨mid, hmid, -⟩ := Stack.feedAll_append_eq_some.mp hfeed
  exact ⟨(noStray_append.mp hstray).1, mid, hmid⟩

theorem derives_program_iff {w : List Token} {tree : Tree} :
    tree.Derives (.phrase .program) w ↔
      ∃ τ, Stack.feedAll [] w = some τ ∧ τ.finish = .ok tree := by
  rw [← strict_map_token]
  have hiff := @strictFrom_eq_ok_iff ⟨.start, .start⟩ [] (w.map .token) tree
  simpa [strict] using hiff

/-- Where the only error of strict parsing is at the end, all tokens fit. -/
theorem feedAll_of_unexpectedEnd {last : Span} {σ : Stack} {ps : List Piece} {pos : Position}
    {expected : List Lookahead}
    (h : strictFrom last.start σ ps = .error (.unexpectedEnd pos expected)) :
    NoStray ps ∧ pos = (lastSpan last ps).start ∧ ∃ τ settled, σ.feedAll (tokensOf ps) = some τ ∧
      τ.finish = .error settled ∧ expected = settled.expected := by
  induction ps generalizing last σ with
  | nil =>
    rw [strictFrom] at h
    cases hfinish : σ.finish with
    | ok tree => simp [hfinish] at h
    | error settled =>
      simp only [hfinish, Except.error.injEq, ParseError.unexpectedEnd.injEq] at h
      exact ⟨noStray_nil, h.1.symm, σ, settled, rfl, hfinish, h.2.symm⟩
  | cons p ps ih =>
    cases p with
    | ignored cs => simpa using ih h
    | stray c pos => cases h
    | token t =>
      rw [strictFrom] at h
      cases hfeed : σ.feed t with
      | error settled => simp [hfeed] at h
      | ok next =>
        rw [hfeed] at h
        rw [tokensOf_token, Stack.feedAll_cons_of_feed hfeed, noStray_token, lastSpan_token]
        exact @ih t.span next h

theorem strictFrom_of_recoverFrom {last : Span} {σ : Stack} {ps : List Piece} {tree : Tree}
    (hσ : Stack.Path σ) (h : recoverFrom last σ ps = ⟨[], some tree⟩) :
    strictFrom last.start σ ps = .ok tree := by
  cases hstrict : strictFrom last.start σ ps with
  | ok tree' =>
    rw [recoverFrom_of_strictFrom_ok hstrict] at h
    cases h
    rfl
  | error e =>
    obtain ⟨done, rest, d, ds, hrepairs, -⟩ := recoverFrom_of_strictFrom_error hσ hstrict
    rw [h] at hrepairs
    cases hrepairs

end Parsing

end Sema
