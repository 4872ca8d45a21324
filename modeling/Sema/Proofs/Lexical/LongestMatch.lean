import Mathlib.Data.List.DropRight
import Sema.Proofs.Lexical.Languages
import Sema.Proofs.Parsing.ReportPlaces

/-!
# Pieces are the longest matches

The pieces of a text are what its lexemes should be (`pieces_longest`). Put together they are the
text. At the start of each stands the longest token that the text has there, unless a comment
starts, and a character is stray only where nothing matches at all (`Piece.Cut`). Tokens are listed
in their order, each with the line on which it starts.
-/

namespace Sema

open Lexeme (Blanks LineComment BlockComment StartsComment)

/-! ## Columns -/

theorem Position.column_advance_start (cs : List Char) :
    (Position.start.advance cs).column = 1 + (cs.rtakeWhile (· != '\n')).length := by
  induction cs using List.reverseRecOn with
  | nil => rfl
  | append_singleton cs c ih =>
    rw [advance_append, advance_cons, advance_nil, List.rtakeWhile_concat, next]
    by_cases hc : c = '\n'
    · simp [hc]
    · simp only [hc, if_false, bne_iff_ne, ne_eq, not_false_eq_true, if_true, ih]
      rw [List.length_append, List.length_singleton]
      omega

/-! ## Keywords -/

theorem ofWord_mem_keywords_iff (word : List Char) :
    Terminal.ofWord word ∈ Terminal.keywords.map Prod.snd ↔
      word ∈ Terminal.keywords.map Prod.fst := by
  have hname : Terminal.name ∉ Terminal.keywords.map Prod.snd := by decide
  cases hlookup : Terminal.keywords.lookup word with
  | none =>
    rw [Terminal.ofWord, hlookup]
    refine iff_of_false hname fun hmem => ?_
    obtain ⟨entry, hentry, heq⟩ := List.mem_map.mp hmem
    have hne := List.lookup_eq_none_iff.mp hlookup entry hentry
    simp [heq] at hne
  | some kind =>
    obtain ⟨before, after, hkeywords, -⟩ := List.lookup_eq_some_iff.mp hlookup
    have hmem : (word, kind) ∈ Terminal.keywords := by simp [hkeywords]
    rw [Terminal.ofWord, hlookup]
    exact iff_of_true (List.mem_map_of_mem (f := Prod.snd) hmem)
      (List.mem_map_of_mem (f := Prod.fst) hmem)

theorem keyword_iff_of_first? {c : Char} {cs : List Char} {kind : Terminal} {n : Nat}
    (h : Lexeme.first? c cs = some (.token kind, n)) :
    kind ∈ Terminal.keywords.map Prod.snd ↔ c :: cs.take n ∈ Terminal.keywords.map Prod.fst := by
  have hword (hmem : c :: cs.take n ∈ Terminal.keywords.map Prod.fst) :
      Lexeme.isWordStart c = true := by
    obtain ⟨⟨_, kind'⟩, hentry, htext⟩ := List.mem_map.mp hmem
    obtain ⟨d, rest, rfl, hd, -⟩ := Lexeme.word_of_mem_keywords hentry
    rwa [(List.cons.inj htext).1] at hd
  rcases Lexeme.token_cases h with ⟨-, rfl, -⟩ | ⟨hc, hnumber⟩ | ⟨rfl, rfl, -⟩ | ⟨hc, hmark, -⟩
  · exact ofWord_mem_keywords_iff _
  · refine iff_of_false (fun hkind => ?_) fun hmem => ?_
    · rw [Lexeme.number_eq] at hnumber
      split at hnumber
      · cases hnumber
        revert hkind
        decide
      · cases hnumber
        revert hkind
        decide
    · rw [Lexeme.isDigit_of_isWordStart (hword hmem)] at hc
      cases hc
  · refine iff_of_false (by decide) fun hmem => ?_
    cases hword hmem
  · refine iff_of_false (fun hkind => ?_) fun hmem => ?_
    · have hall : ∀ entry ∈ Terminal.marks, entry.2 ∉ Terminal.keywords.map Prod.snd := by decide
      exact hall _ (Lexeme.mem_marks_of_mark? hmark) hkind
    · rw [(Lexeme.classes_of_isMarkStart hc).2.1] at hword
      cases hword hmem

/-! ## Pieces -/

/-- How a piece is cut off a text that goes on with `rest` after it. -/
inductive Piece.Cut (rest : List Char) : Piece → Prop
  /-- A token is the longest one there is, and no comment starts where it does. -/
  | token {t : Token} (spells : t.kind.Spells t.text.toList)
      (longest : ∀ (kind : Terminal) (m : List Char), kind.Spells m → m <+: t.text.toList ++ rest →
        m.length ≤ t.text.toList.length)
      (keyword : t.kind ∈ Terminal.keywords.map Prod.snd ↔
        t.text.toList ∈ Terminal.keywords.map Prod.fst)
      (comment : ¬StartsComment (t.text.toList ++ rest)) (line : '\n' ∉ t.text.toList) :
      Cut rest (.token t)
  /-- White space goes on as far as it can. -/
  | blanks {cs : List Char} (blanks : Blanks cs)
      (ends : ∀ c ∈ rest.head?, Lexeme.isBlank c = false) : Cut rest (.ignored cs)
  /-- A comment within a line goes on up to the end of the line. -/
  | lineComment {cs : List Char} (comment : LineComment cs) (ends : ∀ c ∈ rest.head?, c = '\n') :
      Cut rest (.ignored cs)
  /-- A comment with an end of its own ends with the first one there is. -/
  | blockComment {cs : List Char} (comment : BlockComment cs)
      (first : ∀ m, BlockComment m → m <+: cs ++ rest → cs.length ≤ m.length) :
      Cut rest (.ignored cs)
  /-- No lexeme starts with a stray character. -/
  | stray {c : Char} {pos : Position}
      (none : ∀ (cls : LexemeClass) (m : List Char), cls.Spells m → ¬m <+: c :: rest) :
      Cut rest (.stray c pos)

namespace Piece

variable {p : Piece} {rest : List Char}

theorem Cut.exists_spells (h : p.Cut rest) (hp : p.stray? = none) :
    ∃ cls : LexemeClass, cls.Spells p.text := by
  cases h with
  | @token t spells longest keyword comment line => exact ⟨.token t.kind, spells⟩
  | blanks blanks ends => exact ⟨.ignored, .inl blanks⟩
  | lineComment comment ends => exact ⟨.ignored, .inr (.inl comment)⟩
  | blockComment comment first => exact ⟨.ignored, .inr (.inr comment)⟩
  | stray none => cases hp

theorem Cut.stray_iff (h : p.Cut rest) :
    (∃ c pos, p = .stray c pos) ↔
      ∀ (cls : LexemeClass) (m : List Char), cls.Spells m → ¬m <+: p.text ++ rest := by
  constructor
  · rintro ⟨c, pos, rfl⟩
    cases h with
    | stray none => exact none
  · intro hnone
    cases hp : p.stray? with
    | some place =>
      cases p <;> cases hp
      exact ⟨_, _, rfl⟩
    | none =>
      obtain ⟨cls, hcls⟩ := h.exists_spells hp
      exact absurd (List.prefix_append ..) (hnone cls _ hcls)

end Piece

namespace Lexeme

theorem LineComment.startsComment {cs : List Char} (h : LineComment cs) (rest : List Char) :
    StartsComment (cs ++ rest) := by
  obtain ⟨body, rfl, -⟩ := h
  exact .inl ⟨body ++ rest, rfl⟩

theorem BlockComment.startsComment {cs : List Char} (h : BlockComment cs) (rest : List Char) :
    StartsComment (cs ++ rest) := by
  obtain ⟨body, rfl⟩ := h
  exact .inr ⟨body ++ commentEnd ++ rest, rfl, body, rest, rfl⟩

theorem StartsComment.exists_spells {cs : List Char} (h : StartsComment cs) :
    ∃ m, m <+: cs ∧ LexemeClass.ignored.Spells m := by
  rcases h with ⟨rest, rfl⟩ | ⟨_, rfl, body, rest, rfl⟩
  · exact ⟨['/', '/'], ⟨rest, rfl⟩, .inr (.inl ⟨[], rfl, List.not_mem_nil⟩)⟩
  · exact ⟨'/' :: '*' :: (body ++ commentEnd), ⟨rest, rfl⟩, .inr (.inr ⟨body, rfl⟩)⟩

end Lexeme

namespace Piece

theorem Cut.comment_iff {p : Piece} {rest : List Char} (h : p.Cut rest) :
    (∃ cs, p = .ignored cs ∧ (LineComment cs ∨ BlockComment cs)) ↔
      StartsComment (p.text ++ rest) := by
  constructor
  · rintro ⟨cs, rfl, comment | comment⟩
    · exact comment.startsComment rest
    · exact comment.startsComment rest
  · intro hstarts
    cases h with
    | token _ _ _ comment _ => exact absurd hstarts comment
    | @blanks cs blanks ends =>
      obtain ⟨c, cs, rfl⟩ := List.exists_cons_of_ne_nil blanks.1
      have hc := blanks.2 c List.mem_cons_self
      rcases hstarts with ⟨_, heq⟩ | ⟨_, heq, -⟩
      · rw [(List.cons.inj heq).1] at hc
        cases hc
      · rw [(List.cons.inj heq).1] at hc
        cases hc
    | lineComment comment ends => exact ⟨_, rfl, .inl comment⟩
    | blockComment comment first => exact ⟨_, rfl, .inr comment⟩
    | stray none =>
      obtain ⟨m, hm, hspells⟩ := hstarts.exists_spells
      exact absurd hm (none .ignored m hspells)

theorem cut_of_piecesFrom {pos : Position} {cs : List Char} {p : Piece} {ps : List Piece}
    (h : piecesFrom pos cs = p :: ps) : p.Cut (ps.flatMap Piece.text) := by
  rcases cs with _ | ⟨c, cs⟩
  · rw [piecesFrom_nil] at h
    cases h
  cases hfirst : Lexeme.first? c cs with
  | none =>
    rw [piecesFrom_of_stray hfirst] at h
    cases h
    rw [text_piecesFrom]
    exact .stray fun cls m hm => Lexeme.not_prefix_of_first? hfirst hm
  | some lexeme =>
    obtain ⟨cls, n⟩ := lexeme
    rw [piecesFrom_of_first? hfirst] at h
    have htext : c :: cs.take n ++ cs.drop n = c :: cs := by simp
    cases cls with
    | token kind =>
      cases h
      rw [text_piecesFrom]
      constructor
      · simpa using Lexeme.spells_of_first? hfirst
      · intro kind' m hm hpre
        simp only [String.toList_ofList, htext] at hpre ⊢
        have hfound := Lexeme.longest_of_first? hfirst hm hpre
        have htotal := hpre.length_le
        simp only [List.length_cons, List.length_take] at htotal ⊢
        omega
      · simpa using keyword_iff_of_first? hfirst
      · simpa using Lexeme.not_startsComment_of_first? hfirst
      · simpa using Lexeme.not_mem_of_first? hfirst
    | ignored =>
      cases h
      rw [text_piecesFrom]
      rcases Lexeme.ignored_of_first? hfirst with ⟨hblanks, hends⟩ | ⟨hcomment, hends⟩ |
        ⟨hcomment, hleast⟩
      · exact .blanks hblanks hends
      · exact .lineComment hcomment hends
      · refine .blockComment hcomment fun m hm hpre => ?_
        rw [htext] at hpre
        have := hleast m hm hpre
        simp
        omega

theorem cut_of_pieces {source : List Char} {before after : List Piece} {p : Piece}
    (h : pieces source = before ++ p :: after) : p.Cut (after.flatMap Piece.text) := by
  obtain ⟨rest, -, hpieces⟩ := piecesFrom_eq_append h
  exact cut_of_piecesFrom hpieces.symm

end Piece

/-! ## The pieces of a text -/

theorem tokenListing_eq (source : List Char) : tokenListing source =
    (tokensOf (pieces source)).map fun t => ⟨t.kind.label, t.text, t.start.line⟩ := by
  rw [tokenListing, (Listing.runs_ofSource source).tokens_replaced.1]
  exact List.map_congr_left fun t ht => listed_of_mem_tokensOf ht

/-- The pieces of a text, put together, are the text, and the tokens among them are those that are
listed. Each piece is the longest match at its place: a token of whatever kind, where no comment
starts; a comment where one does; a stray character where nothing matches. The place of a token is
the number of lines before it and the distance from the last line feed. -/
theorem pieces_longest (source : List Char) :
    (pieces source).flatMap Piece.text = source ∧
      tokenListing source =
        (tokensOf (pieces source)).map (fun t => ⟨t.kind.label, t.text, t.start.line⟩) ∧
      ∀ before p after, pieces source = before ++ p :: after →
        p.Cut (after.flatMap Piece.text) ∧
          ((∃ cs, p = .ignored cs ∧ (LineComment cs ∨ BlockComment cs)) ↔
            StartsComment (p.text ++ after.flatMap Piece.text)) ∧
          ((∃ c pos, p = .stray c pos) ↔ ∀ (cls : LexemeClass) (m : List Char), cls.Spells m →
            ¬m <+: p.text ++ after.flatMap Piece.text) ∧
          ∀ t, p = .token t → t.start.line = 1 + (before.flatMap Piece.text).count '\n' ∧
            t.start.column = 1 + ((before.flatMap Piece.text).rtakeWhile (· != '\n')).length := by
  refine ⟨text_pieces source, tokenListing_eq source, fun before p after h => ?_⟩
  have hcut := Piece.cut_of_pieces h
  refine ⟨hcut, hcut.comment_iff, hcut.stray_iff, ?_⟩
  rintro t rfl
  obtain ⟨-, -, hstart, -⟩ := exists_text_around h
  rw [hstart]
  exact ⟨Position.line_advance .start _, Position.column_advance_start _⟩

end Sema
