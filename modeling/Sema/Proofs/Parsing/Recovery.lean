import Sema.Proofs.Parsing.Agreement
import Sema.Proofs.Parsing.Programs
import Sema.Proofs.Syntax.Bare

/-!
# Recovery gives programs of the grammar

What a recovering parse has on its stack is a path of the automaton, and the tokens at the leaves
are tokens of the source, in their order, with closing marks inserted between them (`Holds`). Each
step keeps this, as there is little that it can do to the leaves (`Takes`): shifting a token or a mark
adds it at the end, a token that is refused leaves the settled stack with the same leaves, giving up
frames cuts off the last tokens, and a dropped token is passed over. So the tree that comes out
derives the edited tokens as a program (`derives_recover`), and strict parsing of them gives the same
program (`recovered_grammatical`).
-/

namespace Sema

/-! ## Edited tokens -/

/-- A token of an edited text. -/
inductive Edit where
  /-- A token of the source. -/
  | kept (t : Token)
  /-- A closing mark that was inserted. -/
  | inserted (mark : Closer) (place : Span)

namespace Edit

def token : Edit → Token
  | kept t => t
  | inserted mark place => mark.token place

def kept? : Edit → Option Token
  | kept t => some t
  | inserted _ _ => none

end Edit

/-- The tokens `w` are some of those in `source`, in the same order, with marks inserted. -/
def Edited (source w : List Token) : Prop :=
  ∃ es : List Edit, es.map Edit.token = w ∧ (es.filterMap Edit.kept?).Sublist source

namespace Edited

variable {source w : List Token}

theorem nil : Edited [] [] :=
  ⟨[], rfl, List.nil_sublist []⟩

theorem keep (h : Edited source w) (t : Token) : Edited (source ++ [t]) (w ++ [t]) := by
  obtain ⟨es, hes, hkept⟩ := h
  refine ⟨es ++ [.kept t], ?_, ?_⟩
  · rw [List.map_append, hes]
    rfl
  · rw [List.filterMap_append]
    exact hkept.append (List.Sublist.refl [t])

theorem insert (h : Edited source w) (mark : Closer) (place : Span) :
    Edited source (w ++ [mark.token place]) := by
  obtain ⟨es, hes, hkept⟩ := h
  refine ⟨es ++ [.inserted mark place], ?_, ?_⟩
  · rw [List.map_append, hes]
    rfl
  · rw [List.filterMap_append, show [Edit.inserted mark place].filterMap Edit.kept? = [] from rfl,
      List.append_nil]
    exact hkept

theorem marks (h : Edited source w) (marks : List Closer) (place : Span) :
    Edited source (w ++ marks.map (·.token place)) := by
  induction marks generalizing w with
  | nil => simpa using h
  | cons mark marks ih => simpa using ih (h.insert mark place)

theorem pass (h : Edited source w) (more : List Token) : Edited (source ++ more) w := by
  obtain ⟨es, hes, hkept⟩ := h
  exact ⟨es, hes, hkept.trans (List.sublist_append_left source more)⟩

theorem cut {u v : List Token} (h : Edited source (u ++ v)) : Edited source u := by
  obtain ⟨es, hes, hkept⟩ := h
  obtain ⟨us, vs, rfl, hus, -⟩ := List.map_eq_append_iff.mp hes
  rw [List.filterMap_append] at hkept
  exact ⟨us, hus, (List.sublist_append_left _ _).trans hkept⟩

end Edited

namespace Parsing

open Automaton

/-! ## What a step does to the leaves -/

theorem eq_ok_of_toOption {α β : Type} {x : Except α β} {b : β} (h : x.toOption = some b) :
    x = .ok b := by
  cases x with
  | error a => cases h
  | ok b' =>
    cases h
    rfl

theorem feed_of_insertion? {t : Token} {σ fed : Stack} {mark : Closer}
    (h : insertion? t σ = some (mark, fed)) :
    mark ∈ insertable ∧
      ∃ marked, σ.feed (mark.token t.span) = .ok marked ∧ marked.feed t = .ok fed := by
  obtain ⟨mark', hmem, hmark⟩ := List.exists_of_findSome?_eq_some h
  obtain ⟨fed', hinsert, heq⟩ := Option.map_eq_some_iff.mp hmark
  cases heq
  unfold insert? at hinsert
  split at hinsert
  · next marked hmarked => exact ⟨hmem, marked, hmarked, eq_ok_of_toOption hinsert⟩
  · cases hinsert

theorem feed_of_unwind? {t : Token} {depth : Nat} {σ fed : Stack}
    (h : unwind? t σ = some (depth, fed)) : Stack.feed t (σ.drop depth) = .ok fed := by
  induction σ generalizing depth with
  | nil => cases h
  | cons frame below ih =>
    unfold unwind? at h
    cases hfeed : Stack.feed t below with
    | ok fed' =>
      simp only [hfeed] at h
      cases h
      exact hfeed
    | error settled =>
      simp only [hfeed] at h
      obtain ⟨⟨depth', fed'⟩, hunwind, heq⟩ := Option.map_eq_some_iff.mp h
      cases heq
      exact ih hunwind

/-- What taking the token `t` may do to the leaves `w` of a stack: the token follows some of the
first or all of them, a mark and the token follow them, or the token is dropped. -/
inductive Takes (t : Token) (w : List Token) : List Token → Prop
  | shifted {u : List Token} (first : u <+: w) : Takes t w (u ++ [t])
  | inserted (mark : Closer) : Takes t w (w ++ [mark.token t.span] ++ [t])
  | dropped : Takes t w w

theorem takes_insertion? {t : Token} {σ fed : Stack} {mark : Closer} (hσ : Stack.Path σ)
    (h : insertion? t σ = some (mark, fed)) : Stack.Path fed ∧ Takes t σ.leaves fed.leaves := by
  obtain ⟨-, marked, hmark, hfed⟩ := feed_of_insertion? h
  obtain ⟨hmarked, hleaves⟩ := Stack.path_of_feed_ok hσ hmark
  obtain ⟨hpath, hleaves'⟩ := Stack.path_of_feed_ok hmarked hfed
  rw [hleaves', hleaves]
  exact ⟨hpath, .inserted mark⟩

theorem takes_unwind? {t : Token} {σ fed : Stack} {depth : Nat} (hσ : Stack.Path σ)
    (h : unwind? t σ = some (depth, fed)) : Stack.Path fed ∧ Takes t σ.leaves fed.leaves := by
  have hfirst : Stack.leaves (σ.drop depth) <+: σ.leaves :=
    ⟨Stack.leaves (σ.take depth), by rw [← Stack.leaves_append, List.take_append_drop]⟩
  obtain ⟨hfed, hleaves⟩ := Stack.path_of_feed_ok (hσ.drop depth) (feed_of_unwind? h)
  rw [hleaves]
  exact ⟨hfed, .shifted hfirst⟩

theorem takes_repair {σ : Stack} (hσ : Stack.Path σ) (t : Token) :
    Stack.Path (repair t σ).2 ∧ Takes t σ.leaves (repair t σ).2.leaves := by
  unfold repair
  split
  · next mark fed hinsertion => exact takes_insertion? hσ hinsertion
  · split
    · next depth fed hunwind =>
      split at hunwind
      · exact takes_unwind? hσ hunwind
      · cases hunwind
    · exact ⟨hσ, .dropped⟩

theorem takes_take {σ : Stack} (hσ : Stack.Path σ) (t : Token) :
    Stack.Path (take t σ).2 ∧ Takes t σ.leaves (take t σ).2.leaves := by
  cases hfeed : σ.feed t with
  | ok fed =>
    obtain ⟨hfed, hleaves⟩ := Stack.path_of_feed_ok hσ hfeed
    rw [take_of_feed_ok hfeed, hleaves]
    exact ⟨hfed, .shifted List.prefix_rfl⟩
  | error settled =>
    obtain ⟨hsettled, hleaves, -⟩ := Stack.path_of_feed_error hσ hfeed
    rw [take_of_feed_error hfeed, ← hleaves]
    exact takes_repair hsettled t

theorem derives_of_finish {σ : Stack} {tree : Tree} (hσ : Stack.Path σ)
    (h : σ.finish = .ok tree) : tree.Derives (.phrase .program) σ.leaves := by
  obtain ⟨htree, hsymbol, hleaves⟩ := Stack.path_of_finish_ok hσ h
  exact ⟨htree, hsymbol, hleaves⟩

theorem derives_closeWithin {last : Span} {n : Nat} {σ : Stack} {marks : List Closer} {tree : Tree}
    (hσ : Stack.Path σ) (h : closeWithin last n σ = some (marks, tree)) :
    tree.Derives (.phrase .program) (σ.leaves ++ marks.map (·.token last)) := by
  induction n generalizing σ marks with
  | zero => cases h
  | succ n ih =>
    unfold closeWithin at h
    split at h
    · next done hfinish =>
      cases h
      simpa using derives_of_finish hσ hfinish
    · split at h
      · next mark fed hmark =>
        obtain ⟨mark', -, hmark'⟩ := List.exists_of_findSome?_eq_some hmark
        obtain ⟨fed', hfed, heq⟩ := Option.map_eq_some_iff.mp hmark'
        cases heq
        obtain ⟨⟨later, tree'⟩, hlater, heq⟩ := Option.map_eq_some_iff.mp h
        cases heq
        obtain ⟨hpath, hleaves⟩ := Stack.path_of_feed_ok hσ (eq_ok_of_toOption hfed)
        simpa [hleaves] using ih hpath hlater
      · cases h

theorem derives_close {last : Span} {σ : Stack} {tree : Tree} (hσ : Stack.Path σ)
    (h : (close last σ).tree = some tree) :
    ∃ marks : List Closer,
      tree.Derives (.phrase .program) (σ.leaves ++ marks.map (·.token last)) := by
  unfold close at h
  split at h
  · next done hfinish =>
    cases h
    exact ⟨[], by simpa using derives_of_finish hσ hfinish⟩
  · next settled hfinish =>
    split at h
    · next marks done hwithin =>
      cases h
      obtain ⟨hsettled, hleaves, -⟩ := Stack.path_of_finish_error hσ hfinish
      exact ⟨marks, hleaves ▸ derives_closeWithin hsettled hwithin⟩
    · cases h

/-! ## What the stack holds -/

/-- The stack holds edited tokens of the source along a path of the automaton. -/
structure Holds (source : List Token) (σ : Stack) : Prop where
  path : Stack.Path σ
  edited : Edited source σ.leaves

theorem Holds.nil : Holds [] [] :=
  ⟨.nil, .nil⟩

theorem Takes.edited {t : Token} {source w w' : List Token} (h : Takes t w w')
    (hw : Edited source w) : Edited (source ++ [t]) w' := by
  cases h with
  | shifted first =>
    obtain ⟨v, rfl⟩ := first
    exact hw.cut.keep t
  | inserted mark => exact (hw.insert mark t.span).keep t
  | dropped => exact hw.pass [t]

theorem Holds.take {source : List Token} {σ : Stack} (h : Holds source σ) (t : Token) :
    Holds (source ++ [t]) (take t σ).2 := by
  obtain ⟨hpath, htakes⟩ := takes_take h.path t
  exact ⟨hpath, htakes.edited h.edited⟩

/-- The tree derives edited tokens of the source as a program. -/
def DerivesEdited (source : List Token) (tree : Tree) : Prop :=
  tree.Derives (.phrase .program) tree.leaves ∧ Edited source tree.leaves

theorem Holds.close {source : List Token} {last : Span} {σ : Stack} {tree : Tree}
    (h : Holds source σ) (hclose : (close last σ).tree = some tree) : DerivesEdited source tree := by
  obtain ⟨marks, htree⟩ := derives_close h.path hclose
  rw [DerivesEdited, htree.leaves]
  exact ⟨htree, h.edited.marks marks last⟩

/-! ## The whole parse -/

theorem Holds.recoverFrom {source : List Token} {last : Span} {σ : Stack} {ps : List Piece}
    {tree : Tree} (h : Holds source σ) (hrecover : (recoverFrom last σ ps).tree = some tree) :
    DerivesEdited (source ++ tokensOf ps) tree := by
  induction ps generalizing source last σ with
  | nil => simpa using h.close hrecover
  | cons p rest ih =>
    cases p with
    | token t => simpa using ih (h.take t) hrecover
    | ignored cs => exact ih h hrecover
    | stray c pos => exact ih h hrecover

/-- The tree of a recovering parse derives edited tokens of the source as a program. -/
theorem derives_recover {ps : List Piece} {tree : Tree} (h : (recover ps).tree = some tree) :
    DerivesEdited (tokensOf ps) tree := by
  simpa using Holds.nil.recoverFrom h

end Parsing

/-! ## Programs -/

theorem program_eq_some {r : Recovered} {source : List Char} {p : Program}
    (h : r.program source = .ok (some p)) :
    ∃ tree, r.tree = some tree ∧ Reading.program source tree = .ok p := by
  unfold Recovered.program at h
  split at h
  · cases h
  · next tree htree =>
    refine ⟨tree, htree, ?_⟩
    cases hread : Reading.program source tree with
    | error e => simp [hread, Functor.map, Except.map] at h
    | ok q => simpa [hread] using h

/-- Tokens that differ in their places only from those of a derivation make the same program, up to
places. -/
theorem ofPieces_of_bare_eq {source source' : List Char} {t : Tree} {w : List Token} {p : Program}
    (ht : t.Derives (.phrase .program) w) (hp : Reading.program source t = .ok p)
    {ps : List Piece} (hps : NoStray ps) (hbare : (tokensOf ps).map Token.bare = w.map Token.bare) :
    ∃ q, Program.ofPieces source' ps = .ok q ∧ q.bare = p.bare := by
  rw [← ht.leaves] at hbare
  obtain ⟨t', htree, hleaves, hsymbol, hwf⟩ := t.exists_with_leaves (tokensOf ps) hbare
  have ht' : t'.Derives (.phrase .program) (tokensOf ps) :=
    ⟨hwf ht.wellFormed, hsymbol.trans ht.symbol, hleaves⟩
  obtain ⟨q, hq, hsame⟩ := exists_reading_of_bare_eq ht.wellFormed ht.symbol ht'.wellFormed
    ht'.symbol htree hp
  exact ⟨q, ofPieces_eq_ok.mpr ⟨t', Parsing.strict_eq_ok_iff.mpr ⟨hps, ht'⟩, hq⟩, hsame⟩

/-- A program that comes out of recovery is one of the grammar: there are edited tokens of the
source, some left out and closing marks inserted, that strict parsing takes as this very program,
and, up to places and the texts of initializers, so it does wherever else the same tokens stand. -/
theorem recovered_grammatical {source : List Char} {r : Parsed} {p : Program}
    (hr : Parsed.ofSource source = .ok r) (hp : r.program = some p) :
    ∃ es : List Edit,
      (es.filterMap Edit.kept?).Sublist (tokensOf (pieces source)) ∧
      (∀ e ∈ es, e.kept? = none → e.token.text ∈ [";", ")", "\x7d"]) ∧
      Program.ofPieces source (es.map fun e => .token e.token) = .ok p ∧
      ∀ (source' : List Char) (ps : List Piece), NoStray ps →
        (tokensOf ps).map Token.bare = es.map (fun e => e.token.bare) →
        ∃ q, Program.ofPieces source' ps = .ok q ∧ q.bare = p.bare := by
  obtain ⟨hprogram, -⟩ := parsed_eq_ok.mp hr
  rw [hp] at hprogram
  obtain ⟨tree, htree, hread⟩ := program_eq_some hprogram
  obtain ⟨hderives, es, hes, hkept⟩ := Parsing.derives_recover htree
  rw [← hes] at hderives
  refine ⟨es, hkept, ?_, ?_, ?_⟩
  · intro e _ hinserted
    cases e with
    | kept t => cases hinserted
    | inserted mark place => cases mark <;> simp [Edit.token, Closer.token, Closer.text]
  · have hpieces : es.map (fun e => Piece.token e.token) = (es.map Edit.token).map .token := by
      rw [List.map_map]
      rfl
    rw [hpieces]
    exact ofPieces_eq_ok.mpr ⟨tree, Parsing.strict_map_token.mpr hderives, hread⟩
  · intro source' ps hps hbare
    refine ofPieces_of_bare_eq hderives hread hps ?_
    rw [hbare, List.map_map]
    rfl

/-- A source in which recovery gives up frames, skips a character, drops a token and closes what is
open at the end. -/
def broken : List Char :=
  "f()\x7by=;@)g(1".toList

theorem broken_grammatical : ∃ (r : Parsed) (p : Program) (es : List Edit),
    Parsed.ofSource broken = .ok r ∧ r.program = some p ∧
    (es.filterMap Edit.kept?).Sublist (tokensOf (pieces broken)) ∧
    Program.ofPieces broken (es.map fun e => .token e.token) = .ok p := by
  have hsome : (Parsed.ofSource broken).toOption.any (·.program.isSome) = true := by decide +kernel
  cases hr : Parsed.ofSource broken with
  | error e => simp [hr, Except.toOption] at hsome
  | ok r =>
    rw [hr] at hsome
    obtain ⟨p, hp⟩ := Option.isSome_iff_exists.mp hsome
    obtain ⟨es, hkept, -, hstrict, -⟩ := recovered_grammatical hr hp
    exact ⟨r, p, es, rfl, hp, hkept, hstrict⟩

end Sema
