import Sema.Parsing.Recovery
import Sema.Proofs.Syntax.Bare

/-!
# Parsing does not look at places

What a parse does is settled by the kinds and texts of the tokens. Taking the places out of a stack
and of what follows it takes them out of what comes of it, and changes nothing else
(`bare_recoverFrom`). So two parses that differ in places only go the same way
(`recoverFrom_of_bare_eq`).
-/

namespace Sema

def Span.nowhere : Span := ⟨.start, .start⟩

theorem Closer.bare_token (k : Closer) (place : Span) :
    (k.token place).bare = k.token .nowhere := rfl

namespace Automaton

/-! ## Stacks -/

def Frame.bare (frame : Frame) : Frame :=
  ⟨frame.state, frame.tree.bare⟩

namespace Stack

def bare (σ : Stack) : Stack :=
  σ.map Frame.bare

@[simp] theorem bare_nil : bare [] = [] := rfl

@[simp] theorem bare_cons (frame : Frame) (σ : Stack) :
    bare (frame :: σ) = frame.bare :: bare σ := rfl

@[simp] theorem state_bare (σ : Stack) : state σ.bare = state σ := by
  cases σ <;> rfl

theorem bare_drop (σ : Stack) (n : Nat) : bare (σ.drop n) = σ.bare.drop n :=
  List.map_drop

theorem reduce?_bare (r : Rule) (σ : Stack) : reduce? r σ.bare = (reduce? r σ).map bare := by
  have hparts : ((σ.bare.take r.body.length).map (·.tree)).reverse =
      Tree.bareAll ((σ.take r.body.length).map (·.tree)).reverse := by
    rw [Tree.bareAll_eq_map, List.map_reverse, List.map_map, bare, ← List.map_take, List.map_map]
    rfl
  simp only [reduce?, ← bare_drop, state_bare, hparts, Option.map_map]
  rfl

theorem settleWithin_bare (la : Lookahead) (n : Nat) (σ : Stack) :
    settleWithin la n σ.bare = (settleWithin la n σ).bare := by
  induction n generalizing σ with
  | zero => rfl
  | succ n ih =>
    simp only [settleWithin, state_bare]
    split
    · next r _ =>
      rw [reduce?_bare]
      cases reduce? r σ with
      | none => rfl
      | some τ => exact ih τ
    · rfl

theorem settle_bare (la : Lookahead) (σ : Stack) : settle la σ.bare = (settle la σ).bare := by
  have hlength : σ.bare.length = σ.length := List.length_map _
  rw [settle, settleWithin_bare, hlength, settle]

def bareResult : Except Stack Stack → Except Stack Stack
  | .ok σ => .ok σ.bare
  | .error σ => .error σ.bare

theorem feed_bare (t : Token) (σ : Stack) : feed t.bare σ.bare = bareResult (feed t σ) := by
  simp only [feed, Token.kind_bare, settle_bare, state_bare]
  split <;> rfl

theorem exists_feed_of_bare_eq {t t' : Token} {σ σ' τ : Stack} (ht : t'.bare = t.bare)
    (hσ : σ'.bare = σ.bare) (h : feed t σ = .ok τ) :
    ∃ τ', feed t' σ' = .ok τ' ∧ τ'.bare = τ.bare := by
  have hbare := feed_bare t' σ'
  rw [ht, hσ, feed_bare, h] at hbare
  cases hfeed : feed t' σ' with
  | ok τ' =>
    rw [hfeed] at hbare
    exact ⟨τ', rfl, (Except.ok.inj hbare).symm⟩
  | error settled =>
    rw [hfeed] at hbare
    cases hbare

theorem finish_bare (σ : Stack) :
    finish σ.bare = (match finish σ with
      | .ok tree => .ok tree.bare
      | .error τ => .error τ.bare) := by
  simp only [finish, settle_bare, state_bare]
  generalize action? (state (settle .endOfInput σ)) .endOfInput = a
  rcases settle .endOfInput σ with _ | ⟨frame, _ | ⟨frame', τ⟩⟩ <;>
    rcases a with _ | _ | _ | _ <;> rfl

end Stack

end Automaton

/-! ## Repairs -/

def Piece.bare : Piece → Piece
  | token t => token t.bare
  | ignored cs => ignored cs
  | stray c _ => stray c .start

def Repair.bare : Repair → Repair
  | skipped c _ => skipped c .start
  | inserted mark t => inserted mark t.bare
  | unwound depth t expected => unwound depth t.bare expected
  | dropped t expected => dropped t.bare expected
  | closed marks _ => closed marks .start
  | abandoned _ expected => abandoned .start expected

def Recovered.bare (r : Recovered) : Recovered :=
  ⟨r.repairs.map Repair.bare, r.tree.map Tree.bare⟩

namespace Parsing

open Automaton
open Automaton.Stack (bareResult)

theorem toOption_bareResult (x : Except Stack Stack) :
    (bareResult x).toOption = x.toOption.map Stack.bare := by
  cases x <;> rfl

/-! ## One token -/

theorem insert?_bare (t : Token) (σ : Stack) (mark : Closer) :
    insert? t.bare σ.bare mark = (insert? t σ mark).map Stack.bare := by
  have hmark : Stack.feed (mark.token t.bare.span) σ.bare =
      bareResult (Stack.feed (mark.token t.span) σ) :=
    Stack.feed_bare (mark.token t.span) σ
  rw [insert?, insert?, hmark]
  cases Stack.feed (mark.token t.span) σ with
  | error τ => rfl
  | ok marked =>
    show (Stack.feed t.bare marked.bare).toOption = (Stack.feed t marked).toOption.map Stack.bare
    rw [Stack.feed_bare, toOption_bareResult]

theorem insertion?_bare (t : Token) (σ : Stack) :
    insertion? t.bare σ.bare = (insertion? t σ).map fun x => (x.1, x.2.bare) := by
  simp only [insertion?, insertable, List.findSome?_cons, List.findSome?_nil, insert?_bare]
  cases insert? t σ .semicolon with
  | some τ => rfl
  | none => cases insert? t σ .paren <;> rfl

theorem unwind?_bare (t : Token) (σ : Stack) :
    unwind? t.bare σ.bare = (unwind? t σ).map fun x => (x.1, x.2.bare) := by
  induction σ with
  | nil => rfl
  | cons frame below ih =>
    rw [Stack.bare_cons, unwind?, unwind?, Stack.feed_bare, ih]
    cases Stack.feed t below with
    | ok fed => rfl
    | error τ => simp only [bareResult, Option.map_map]; rfl

theorem repair_bare (t : Token) (σ : Stack) :
    repair t.bare σ.bare = ((repair t σ).1.bare, (repair t σ).2.bare) := by
  have hboundary : isBoundary t.bare = isBoundary t := rfl
  have hexpected : σ.bare.expected = σ.expected := by simp [Stack.expected]
  have hunwind : (if isBoundary t = true then unwind? t.bare σ.bare else none) =
      (if isBoundary t = true then unwind? t σ else none).map fun x => (x.1, x.2.bare) := by
    split
    · exact unwind?_bare t σ
    · rfl
  simp only [repair, insertion?_bare, hboundary, hunwind, hexpected]
  cases insertion? t σ with
  | some x => rfl
  | none => cases (if isBoundary t = true then unwind? t σ else none) <;> rfl

theorem take_bare (t : Token) (σ : Stack) :
    take t.bare σ.bare = ((take t σ).1.map Repair.bare, (take t σ).2.bare) := by
  rw [take, take, Stack.feed_bare]
  cases Stack.feed t σ with
  | ok fed => rfl
  | error settled => simp only [bareResult, repair_bare]; rfl

/-! ## The end of the input -/

theorem findSome?_mark_bare (last : Span) (σ : Stack) (ks : List Closer) :
    ks.findSome? (fun k => (σ.bare.feed (k.token .nowhere)).toOption.map (k, ·)) =
      (ks.findSome? fun k => (σ.feed (k.token last)).toOption.map (k, ·)).map
        fun x => (x.1, x.2.bare) := by
  induction ks with
  | nil => rfl
  | cons k ks ih =>
    have hfeed : σ.bare.feed (k.token .nowhere) = bareResult (σ.feed (k.token last)) :=
      Stack.feed_bare (k.token last) σ
    rw [List.findSome?_cons, List.findSome?_cons, hfeed, toOption_bareResult, ih]
    cases (σ.feed (k.token last)).toOption <;> rfl

theorem closeWithin_bare (last : Span) (n : Nat) (σ : Stack) :
    closeWithin .nowhere n σ.bare =
      (closeWithin last n σ).map fun x => (x.1, x.2.bare) := by
  induction n generalizing σ with
  | zero => rfl
  | succ n ih =>
    rw [closeWithin, closeWithin, Stack.finish_bare]
    cases σ.finish with
    | ok tree => rfl
    | error settled =>
      dsimp only
      rw [findSome?_mark_bare last]
      cases closers.findSome? fun k => (σ.feed (k.token last)).toOption.map (k, ·) with
      | none => rfl
      | some x =>
        simp only [Option.map_some, ih, Option.map_map]
        rfl

theorem close_bare (last : Span) (σ : Stack) : close .nowhere σ.bare = (close last σ).bare := by
  rw [close, close, Stack.finish_bare]
  cases σ.finish with
  | ok tree => rfl
  | error settled =>
    dsimp only
    rw [closeWithin_bare last]
    cases closeWithin last closingRounds settled with
    | none => simp [Recovered.bare, Repair.bare, Stack.expected, Span.nowhere]
    | some x => rfl

/-! ## The whole parse -/

/-- A parse without places is the parse, without its places. -/
theorem bare_recoverFrom (last : Span) (σ : Stack) (ps : List Piece) :
    recoverFrom .nowhere σ.bare (ps.map Piece.bare) = (recoverFrom last σ ps).bare := by
  induction ps generalizing last σ with
  | nil => exact close_bare last σ
  | cons p ps ih =>
    cases p with
    | ignored cs => exact ih last σ
    | stray c pos =>
      rw [List.map_cons, Piece.bare, recoverFrom, ih last σ, recoverFrom]
      rfl
    | token t =>
      have hspan : t.bare.span = .nowhere := rfl
      simp only [List.map_cons, Piece.bare, recoverFrom, take_bare, hspan, ih t.span]
      simp [Recovered.bare]

/-- Parses that differ in places only have outcomes that differ in places only. -/
theorem recoverFrom_of_bare_eq {last last' : Span} {σ σ' : Stack} {ps ps' : List Piece}
    (hσ : σ.bare = σ'.bare) (hps : ps.map Piece.bare = ps'.map Piece.bare) :
    (recoverFrom last σ ps).bare = (recoverFrom last' σ' ps').bare := by
  rw [← bare_recoverFrom, ← bare_recoverFrom, hσ, hps]

theorem exists_recoverFrom_of_bare_eq {last last' : Span} {σ σ' : Stack} {ps ps' : List Piece}
    {tree : Tree} (hσ : σ'.bare = σ.bare) (hps : ps'.map Piece.bare = ps.map Piece.bare)
    (h : recoverFrom last σ ps = ⟨[], some tree⟩) :
    ∃ tree', recoverFrom last' σ' ps' = ⟨[], some tree'⟩ ∧ tree'.bare = tree.bare := by
  have hbare := @recoverFrom_of_bare_eq last' last σ' σ ps' ps hσ hps
  rw [h] at hbare
  obtain ⟨hrepairs, htree⟩ := Recovered.mk.inj hbare
  obtain ⟨tree', htree', hsame⟩ := Option.map_eq_some_iff.mp htree
  refine ⟨tree', ?_, hsame⟩
  rw [← htree', ← List.map_eq_nil_iff.mp hrepairs]

end Parsing

end Sema
