import Sema.Proofs.Lexical.Listing
import Sema.Proofs.Parsing.Dropping

/-!
# Stray characters in listings and in parses

A listing lexes its text again each time that it has replaced a stray character by a space, and a
parse lexes its text once and goes on behind each stray character. Both come to the same: the space
changes no piece but the one it stands for (`solid_pieces_set`), so the rounds of a listing, one for
each stray character, end with the tokens of the text as it was (`Runs.tokens_replaced`). A parse
reports all stray characters, as no two of them are at the same place (`nodup_straysOf`).
-/

namespace Sema

/-! ## Stray characters of a text -/

/-- The stray characters among the pieces of a text, with their places. -/
def straysOf (ps : List Piece) : List (Char × Position) :=
  ps.filterMap Piece.stray?

@[simp] theorem straysOf_nil : straysOf [] = [] := rfl

@[simp] theorem straysOf_token (t : Token) (ps : List Piece) :
    straysOf (.token t :: ps) = straysOf ps := rfl

@[simp] theorem straysOf_ignored (cs : List Char) (ps : List Piece) :
    straysOf (.ignored cs :: ps) = straysOf ps := rfl

@[simp] theorem straysOf_stray (c : Char) (pos : Position) (ps : List Piece) :
    straysOf (.stray c pos :: ps) = (c, pos) :: straysOf ps := rfl

@[simp] theorem straysOf_append (ps qs : List Piece) :
    straysOf (ps ++ qs) = straysOf ps ++ straysOf qs :=
  List.filterMap_append

@[simp] theorem straysOf_solid (ps : List Piece) : straysOf (solid ps) = straysOf ps := by
  induction ps with
  | nil => rfl
  | cons p ps ih => cases p <;> simp [ih]

theorem straysOf_eq_nil_iff {ps : List Piece} : straysOf ps = [] ↔ NoStray ps :=
  List.filterMap_eq_nil_iff

theorem mem_straysOf {ps : List Piece} {c : Char} {pos : Position} :
    (c, pos) ∈ straysOf ps ↔ .stray c pos ∈ ps := by
  constructor
  · intro h
    obtain ⟨p, hp, hstray⟩ := List.mem_filterMap.mp h
    cases p <;> cases hstray
    exact hp
  · intro h
    exact List.mem_filterMap.mpr ⟨_, h, rfl⟩

theorem getElem?_of_mem_straysOf {source : List Char} {c : Char} {pos : Position}
    (h : (c, pos) ∈ straysOf (pieces source)) :
    source[pos.offset]? = some c ∧ pos = Position.start.advance (source.take pos.offset) := by
  obtain ⟨before, after, rfl, rfl, -⟩ := exists_of_stray_mem (mem_straysOf.mp h)
  simp [offset_advance_start]

def Position.lineColumn (p : Position) : Nat × Nat :=
  (p.line, p.column)

theorem Position.lineColumn_advance_ne {cs : List Char} (h : cs ≠ []) (p : Position) :
    p.lineColumn ≠ (p.advance cs).lineColumn := by
  intro heq
  have hlater := Position.advance_ne h p
  simp only [lineColumn, Prod.mk.injEq] at heq
  omega

/-- No two stray characters stand in the same line and column. -/
theorem nodup_straysOf (start : Position) (cs : List Char) :
    ((straysOf (piecesFrom start cs)).map fun stray => stray.2.lineColumn).Nodup := by
  fun_induction piecesFrom start cs with
  | case1 => exact List.nodup_nil
  | case2 start c cs _ ih =>
    rw [straysOf_stray, List.map_cons, List.nodup_cons]
    refine ⟨fun hmem => ?_, ih⟩
    obtain ⟨⟨d, pos⟩, hstray, hsame⟩ := List.mem_map.mp hmem
    obtain ⟨before, after, -, rfl, -⟩ := exists_of_stray_mem (mem_straysOf.mp hstray)
    exact Position.lineColumn_advance_ne (List.cons_ne_nil c before) start hsame.symm
  | case3 start c cs cls n _ lexeme ih =>
    cases cls with
    | token kind => exact ih
    | ignored => exact ih

/-! ## A stray character replaced by a space -/

/-- A stray character that is replaced by a space is missing among the pieces, and the others stay as
and where they are. -/
theorem solid_pieces_set {source : List Char} {before after : List Piece} {c : Char}
    {pos : Position} (h : pieces source = before ++ .stray c pos :: after)
    (hbefore : NoStray before) :
    solid (pieces (source.set pos.offset ' ')) = solid before ++ solid after := by
  obtain ⟨rest, hsource, hpieces⟩ := piecesFrom_eq_append h
  rcases rest with _ | ⟨d, rest⟩
  · rw [piecesFrom_nil] at hpieces
    cases hpieces
  cases hfirst : Lexeme.first? d rest with
  | some lexeme =>
    rw [piecesFrom_of_first? hfirst] at hpieces
    obtain ⟨cls, n⟩ := lexeme
    cases cls <;> cases hpieces
  | none =>
    rw [piecesFrom_of_stray hfirst] at hpieces
    cases hpieces
    have hline : c ≠ '\n' := by
      rintro rfl
      rw [first?_blank (by decide)] at hfirst
      cases hfirst
    have hset : source.set (Position.start.advance (before.flatMap Piece.text)).offset ' ' =
        before.flatMap Piece.text ++ ' ' :: rest := by
      rw [offset_advance_start, hsource, List.set_append_right _ _ (Nat.le_refl _), Nat.sub_self,
        List.set_cons_zero]
    have hreplaces : Lexeme.Replaces (c :: rest) (' ' :: rest) :=
      replaces_spaces (List.cons_ne_nil c []) (by simpa using hline.symm) rest
    have hplace (p : Position) : p.next ' ' = p.next c := by
      rw [Position.next, Position.next, if_neg (by decide), if_neg hline]
    rw [pieces, hsource] at h
    rw [hset, pieces, solid_piecesFrom_append hreplaces hbefore h,
      solid_piecesFrom_blank (by decide), hplace]

namespace Listing

/-! ## Rounds -/

/-- The rounds of a listing: a text without stray characters is lexed, or its first stray character
is replaced by a space and the rounds go on. -/
inductive Runs : List Char → Listing → Prop
  | done {source : List Char} {tokens : List Token} (lexed : lexed source = .ok tokens) :
      Runs source ⟨[], tokens⟩
  | again {source : List Char} {pos : Position} {replaced : List Position} {tokens : List Token}
      (lexed : lexed source = .error pos)
      (rest : Runs (source.set pos.offset ' ') ⟨replaced, tokens⟩) :
      Runs source ⟨pos :: replaced, tokens⟩

theorem runs_within {rounds : Nat} {source : List Char} (h : inked source ≤ rounds) :
    Runs source (within rounds source) := by
  induction rounds generalizing source with
  | zero =>
    cases hlexed : lexed source with
    | ok tokens =>
      rw [within, ← lexed_eq_ok hlexed]
      exact .done hlexed
    | error pos =>
      have := inked_set_lt hlexed
      omega
  | succ rounds ih =>
    rw [within]
    cases hlexed : lexed source with
    | ok tokens => exact .done hlexed
    | error pos =>
      have hless := inked_set_lt hlexed
      exact .again hlexed (ih (by omega))

theorem runs_ofSource (source : List Char) : Runs source (ofSource source) :=
  runs_within List.countP_le_length

theorem lexed_eq_error {source : List Char} {pos : Position} (h : lexed source = .error pos) :
    ∃ c before after, pieces source = before ++ .stray c pos :: after ∧ NoStray before := by
  unfold lexed at h
  split at h
  · next c place hstray =>
    cases h
    obtain ⟨before, p, after, hpieces, hp, hbefore⟩ := List.findSome?_eq_some_iff.mp hstray
    cases p <;> cases hp
    exact ⟨c, before, after, hpieces, hbefore⟩
  · cases h

theorem noStray_of_lexed {source : List Char} {tokens : List Token}
    (h : lexed source = .ok tokens) : NoStray (pieces source) := by
  unfold lexed at h
  split at h
  · cases h
  · next hstray => exact List.findSome?_eq_none_iff.mp hstray

/-- The rounds of a listing replace the stray characters of the text, one after the other, and leave
its tokens. -/
theorem Runs.tokens_replaced {source : List Char} {listing : Listing} (h : Runs source listing) :
    listing.tokens = tokensOf (pieces source) ∧
      listing.replaced = (straysOf (pieces source)).map Prod.snd := by
  induction h with
  | done lexed =>
    have hstrays := straysOf_eq_nil_iff.mpr (noStray_of_lexed lexed)
    exact ⟨lexed_eq_ok lexed, by rw [hstrays]; rfl⟩
  | @again source pos replaced tokens lexed _ ih =>
    obtain ⟨htokens, hreplaced⟩ := ih
    obtain ⟨c, before, after, hpieces, hbefore⟩ := lexed_eq_error lexed
    have hsolid := solid_pieces_set hpieces hbefore
    have hstrays := straysOf_eq_nil_iff.mpr hbefore
    constructor
    · calc tokens
        _ = tokensOf (solid (pieces (source.set pos.offset ' '))) := by
          rw [tokensOf_solid]
          exact htokens
        _ = tokensOf (pieces source) := by
          rw [hsolid, hpieces]
          simp
    · calc pos :: replaced
        _ = pos :: (straysOf (solid (pieces (source.set pos.offset ' ')))).map Prod.snd := by
          rw [straysOf_solid]
          exact congrArg (pos :: ·) hreplaced
        _ = (straysOf (pieces source)).map Prod.snd := by
          rw [hsolid, hpieces]
          simp [hstrays]

end Listing

/-! ## What a parse reports -/

def lexicalError (c : Char) (pos : Position) : Diagnostic :=
  { code := .lexicalError, message := s!"token recognition error at: '{c}'",
    line := some pos.line, column := some pos.column }

namespace Parsing

open Automaton

theorem lexical_diagnostics_recoverFrom (last : Span) (σ : Stack) (ps : List Piece) :
    ((recoverFrom last σ ps).repairs.flatMap Repair.diagnostics).filter
        (·.code = .lexicalError) =
      (straysOf ps).map fun stray => lexicalError stray.1 stray.2 := by
  induction ps generalizing last σ with
  | nil =>
    refine List.filter_eq_nil_iff.mpr fun d hd => ?_
    rw [(of_mem_diagnostics_close hd).1]
    simp [Repair.syntaxError]
  | cons p ps ih =>
    cases p with
    | ignored cs => exact ih last σ
    | stray c pos =>
      rw [recoverFrom, List.flatMap_cons, List.filter_append, ih last σ]
      rfl
    | token t =>
      have hnone :
          ((take t σ).1.flatMap Repair.diagnostics).filter (·.code = .lexicalError) = [] := by
        refine List.filter_eq_nil_iff.mpr fun d hd => ?_
        rw [of_mem_diagnostics_take hd]
        simp [Repair.syntaxError]
      rw [recoverFrom_token, List.flatMap_append, List.filter_append, hnone, ih]
      rfl

theorem lexical_diagnostics_recover (source : List Char) :
    (recover (pieces source)).diagnostics.filter (·.code = .lexicalError) =
      (straysOf (pieces source)).map fun stray => lexicalError stray.1 stray.2 := by
  have hnodup : ((straysOf (pieces source)).map fun stray =>
      lexicalError stray.1 stray.2).Nodup := by
    refine List.pairwise_map.mpr ((List.pairwise_map.mp (nodup_straysOf .start source)).imp ?_)
    intro stray stray' hne heq
    simp only [lexicalError, Diagnostic.mk.injEq, Option.some.injEq, Int.natCast_inj] at heq
    exact hne (Prod.ext heq.2.2.1 heq.2.2.2)
  rw [Recovered.diagnostics, Repair.report_eq_firsts,
    filter_firsts (fun d _ d' _ heq => by rw [show d = d' from heq]) (fun _ _ _ => Iff.rfl),
    recover, lexical_diagnostics_recoverFrom]
  exact firsts_of_nodup (by simpa using hnodup) (by simp)

end Parsing

/-! ## Listings and parses -/

theorem Token.escapeLineFeeds_of_not_mem {cs : List Char} (h : '\n' ∉ cs) :
    escapeLineFeeds cs = cs := by
  induction cs with
  | nil => rfl
  | cons c cs ih =>
    obtain ⟨hc, hcs⟩ := not_or.mp (mt List.mem_cons.mpr h)
    have hrest := ih hcs
    rw [escapeLineFeeds] at hrest ⊢
    rw [List.flatMap_cons, if_neg (Ne.symm hc), hrest, List.singleton_append]

theorem listed_of_mem_tokensOf {source : List Char} {t : Token}
    (h : t ∈ tokensOf (pieces source)) :
    t.listed = ⟨t.kind.label, t.text, t.start.line⟩ := by
  obtain ⟨before, after, hpieces⟩ := exists_append_of_mem_tokensOf h
  obtain ⟨-, -, -, -, -, -, hline⟩ := exists_text_around hpieces
  rw [Token.listed, Token.escapeLineFeeds_of_not_mem hline, String.ofList_toList]

/-- A listing agrees with a recovering parse of the same text. Its rounds come to an end. The tokens
that it lists are those that the parse takes, and the characters that it replaces are those that the
parse skips: they stand at their places in the text, and each is reported there, in the same
order. -/
theorem listing_agrees_with_recover (source : List Char) :
    Listing.Runs source (Listing.ofSource source) ∧
      tokenListing source =
        (tokensOf (pieces source)).map (fun t => ⟨t.kind.label, t.text, t.start.line⟩) ∧
      (Parsing.recover (pieces source)).tree =
        (Parsing.close (Parsing.lastSpan ⟨.start, .start⟩ (pieces source))
          (Parsing.takeAll [] (Listing.ofSource source).tokens)).tree ∧
      ∃ strays : List (Char × Position),
        (Listing.ofSource source).replaced = strays.map Prod.snd ∧
        (∀ stray ∈ strays, source[stray.2.offset]? = some stray.1 ∧
          stray.2 = Position.start.advance (source.take stray.2.offset)) ∧
        (Parsing.recover (pieces source)).diagnostics.filter (·.code = .lexicalError) =
          strays.map fun stray => lexicalError stray.1 stray.2 := by
  have hruns := Listing.runs_ofSource source
  obtain ⟨htokens, hreplaced⟩ := hruns.tokens_replaced
  refine ⟨hruns, ?_, ?_, straysOf (pieces source), hreplaced, fun stray h => ?_,
    Parsing.lexical_diagnostics_recover source⟩
  · rw [tokenListing, htokens]
    exact List.map_congr_left fun t ht => listed_of_mem_tokensOf ht
  · rw [htokens]
    exact Parsing.tree_recover (pieces source)
  · exact getElem?_of_mem_straysOf h

end Sema
