import Sema.Parsing.Strict
import Sema.Proofs.Automaton.Runs

/-!
# What strict parsing accepts

Strict parsing gives a tree exactly where there is no stray character and the tree derives the
tokens as a program (`strict_eq_ok_iff`). In one direction the tree that comes out is well formed
and has the tokens at its leaves, as every stack on the way does. In the other the automaton reads
whatever tree there is. So a program has one derivation only (`eq_of_derives_program`).
-/

namespace Sema

/-- The tree derives the tokens `w` from the symbol `x`. -/
structure Tree.Derives (t : Tree) (x : GrammarSymbol) (w : List Token) : Prop where
  wellFormed : t.WellFormed
  symbol : t.symbol = x
  leaves : t.leaves = w

def tokensOf (ps : List Piece) : List Token :=
  ps.filterMap Piece.token?

def NoStray (ps : List Piece) : Prop :=
  ∀ p ∈ ps, p.stray? = none

@[simp] theorem tokensOf_nil : tokensOf [] = [] := rfl

@[simp] theorem tokensOf_token (t : Token) (ps : List Piece) :
    tokensOf (.token t :: ps) = t :: tokensOf ps := rfl

@[simp] theorem tokensOf_ignored (cs : List Char) (ps : List Piece) :
    tokensOf (.ignored cs :: ps) = tokensOf ps := rfl

@[simp] theorem tokensOf_stray (c : Char) (pos : Position) (ps : List Piece) :
    tokensOf (.stray c pos :: ps) = tokensOf ps := rfl

@[simp] theorem noStray_nil : NoStray [] := by simp [NoStray]

@[simp] theorem noStray_token (t : Token) (ps : List Piece) :
    NoStray (.token t :: ps) ↔ NoStray ps := by
  simp [NoStray, Piece.stray?]

@[simp] theorem noStray_ignored (cs : List Char) (ps : List Piece) :
    NoStray (.ignored cs :: ps) ↔ NoStray ps := by
  simp [NoStray, Piece.stray?]

@[simp] theorem noStray_stray (c : Char) (pos : Position) (ps : List Piece) :
    ¬ NoStray (.stray c pos :: ps) := by
  simp [NoStray, Piece.stray?]

@[simp] theorem tokensOf_map_token (w : List Token) : tokensOf (w.map .token) = w := by
  induction w with
  | nil => rfl
  | cons t w ih => rw [List.map_cons, tokensOf_token, ih]

@[simp] theorem noStray_map_token (w : List Token) : NoStray (w.map .token) := by
  simp [NoStray, Piece.stray?]

namespace Parsing

open Automaton
open Automaton.Stack (Reads)

/-! ## Trees that come out -/

theorem derives_of_strictFrom {last : Position} {σ : Stack} {ps : List Piece} {tree : Tree}
    (hσ : Stack.Path σ) (h : strictFrom last σ ps = .ok tree) :
    NoStray ps ∧ tree.Derives (.phrase .program) (σ.leaves ++ tokensOf ps) := by
  fun_induction strictFrom last σ ps with
  | case1 last σ done hfinish =>
    cases h
    obtain ⟨htree, hsymbol, hleaves⟩ := Stack.path_of_finish_ok hσ hfinish
    exact ⟨noStray_nil, htree, hsymbol, by simpa using hleaves⟩
  | case2 => cases h
  | case3 last σ cs rest ih => simpa using ih hσ h
  | case4 => cases h
  | case5 last σ t rest next hfeed ih =>
    obtain ⟨hnext, hleaves⟩ := Stack.path_of_feed_ok hσ hfeed
    simpa [hleaves] using ih hnext h
  | case6 => cases h

/-! ## Trees that there are -/

theorem strictFrom_of_reads {last : Position} {σ : Stack} {ps : List Piece} {tree : Tree}
    (hσ : Stack.Path σ) (hps : NoStray ps)
    (h : Reads .endOfInput σ (tokensOf ps) [⟨final, tree⟩]) : strictFrom last σ ps = .ok tree := by
  fun_induction strictFrom last σ ps with
  | case1 last σ done hfinish =>
    cases h with
    | done reduces =>
      rw [(Stack.finish_eq_ok_iff hσ).mpr reduces] at hfinish
      cases hfinish
      rfl
  | case2 last σ settled hfinish =>
    cases h with
    | done reduces =>
      rw [(Stack.finish_eq_ok_iff hσ).mpr reduces] at hfinish
      cases hfinish
  | case3 last σ cs rest ih => exact ih hσ (by simpa using hps) h
  | case4 => simp at hps
  | case5 last σ t rest next hfeed ih =>
    cases h with
    | shift reduces hnext hrest =>
      rw [(Stack.feed_eq_ok_iff hσ).mpr ⟨_, _, reduces, hnext, rfl⟩] at hfeed
      cases hfeed
      exact ih (.cons (reduces.path hσ).1 trivial hnext) (by simpa using hps) hrest
  | case6 last σ t rest settled hfeed =>
    cases h with
    | shift reduces hnext _ =>
      rw [(Stack.feed_eq_ok_iff hσ).mpr ⟨_, _, reduces, hnext, rfl⟩] at hfeed
      cases hfeed

/-- Strict parsing accepts the programs of the grammar, and gives their derivations. -/
theorem strict_eq_ok_iff {ps : List Piece} {tree : Tree} :
    strict ps = .ok tree ↔ NoStray ps ∧ tree.Derives (.phrase .program) (tokensOf ps) := by
  refine ⟨fun h => derives_of_strictFrom .nil h, fun ⟨hps, htree⟩ => ?_⟩
  apply strictFrom_of_reads .nil hps
  rw [← htree.leaves]
  apply Stack.reads_tree htree.wellFormed
  · rw [htree.symbol]
    exact next?_initial_program
  · intro c hc
    rw [htree.symbol] at hc
    cases hc
    rfl

theorem strict_map_token {w : List Token} {tree : Tree} :
    strict (w.map .token) = .ok tree ↔ tree.Derives (.phrase .program) w := by
  simp [strict_eq_ok_iff]

/-- A program has one derivation only. -/
theorem eq_of_derives_program {t t' : Tree} {w : List Token} (h : t.Derives (.phrase .program) w)
    (h' : t'.Derives (.phrase .program) w) : t = t' := by
  have hstrict' := strict_map_token.mpr h'
  rw [strict_map_token.mpr h] at hstrict'
  exact Except.ok.inj hstrict'

end Parsing

end Sema
