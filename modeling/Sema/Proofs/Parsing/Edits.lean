import Sema.Proofs.Lexical.Lexemes
import Sema.Proofs.Parsing.Places
import Sema.Proofs.Parsing.Prefixes

/-!
# Pieces of an edited text

The pieces of a text that follow a place between two of them are the pieces of what stands there
(`piecesFrom_eq_append`). Those before it do not change with what follows, ignored ones apart
(`solid_piecesFrom_append`), and where a text stands settles the places of its pieces only
(`map_bare_piecesFrom`). Ignored pieces make no difference to a parse (`recoverFrom_solid`).

So a token that is overwritten by spaces is missing among the pieces (`solid_pieces_overwritten`),
and a semicolon that is put in after the end of a statement or of a block is one more of them
(`exists_pieces_withSemicolon`).
-/

namespace Sema

/-! ## Pieces that matter -/

def Piece.isSolid : Piece → Bool
  | ignored _ => false
  | _ => true

def solid (ps : List Piece) : List Piece :=
  ps.filter Piece.isSolid

@[simp] theorem solid_nil : solid [] = [] := rfl

@[simp] theorem solid_token (t : Token) (ps : List Piece) :
    solid (.token t :: ps) = .token t :: solid ps := rfl

@[simp] theorem solid_ignored (cs : List Char) (ps : List Piece) :
    solid (.ignored cs :: ps) = solid ps := rfl

@[simp] theorem solid_stray (c : Char) (pos : Position) (ps : List Piece) :
    solid (.stray c pos :: ps) = .stray c pos :: solid ps := rfl

@[simp] theorem solid_append (ps qs : List Piece) : solid (ps ++ qs) = solid ps ++ solid qs :=
  List.filter_append ..

@[simp] theorem tokensOf_solid (ps : List Piece) : tokensOf (solid ps) = tokensOf ps := by
  induction ps with
  | nil => rfl
  | cons p ps ih => cases p <;> simp [ih]

theorem noStray_solid {ps : List Piece} (h : NoStray ps) : NoStray (solid ps) :=
  fun p hp => h p (List.mem_filter.mp hp |>.1)

theorem noStray_of_solid {ps : List Piece} (h : NoStray (solid ps)) : NoStray ps := by
  intro p hp
  cases p with
  | stray c pos => exact h _ (List.mem_filter.mpr ⟨hp, rfl⟩)
  | token t => rfl
  | ignored cs => rfl

theorem map_bare_solid (ps : List Piece) :
    (solid ps).map Piece.bare = solid (ps.map Piece.bare) := by
  induction ps with
  | nil => rfl
  | cons p ps ih => cases p <;> simp [Piece.bare, ih]

theorem tokensOf_map_bare (ps : List Piece) :
    tokensOf (ps.map Piece.bare) = (tokensOf ps).map Token.bare := by
  induction ps with
  | nil => rfl
  | cons p ps ih => cases p <;> simp [Piece.bare, ih]

theorem Parsing.recoverFrom_solid (last : Span) (σ : Automaton.Stack) (ps : List Piece) :
    recoverFrom last σ (solid ps) = recoverFrom last σ ps := by
  induction ps generalizing last σ with
  | nil => rfl
  | cons p ps ih =>
    cases p with
    | ignored cs => exact ih last σ
    | stray c pos => simp only [solid_stray, recoverFrom, ih]
    | token t => simp only [solid_token, recoverFrom, ih]

/-! ## Places and texts -/

theorem piecesFrom_eq_cons {pos : Position} {cs : List Char} {p : Piece} {ps : List Piece}
    (h : piecesFrom pos cs = p :: ps) :
    p.text ≠ [] ∧ ∃ rest, cs = p.text ++ rest ∧ ps = piecesFrom (pos.advance p.text) rest := by
  rcases cs with _ | ⟨c, cs⟩
  · rw [piecesFrom_nil] at h
    cases h
  cases hfirst : Lexeme.first? c cs with
  | none =>
    rw [piecesFrom_of_stray hfirst] at h
    cases h
    exact ⟨List.cons_ne_nil _ _, cs, rfl, rfl⟩
  | some lexeme =>
    rw [piecesFrom_of_first? hfirst] at h
    cases h
    rw [text_ofLexeme]
    exact ⟨List.cons_ne_nil _ _, cs.drop lexeme.2, by simp, rfl⟩

/-- After a place between two pieces stand the pieces of the rest of the text. -/
theorem piecesFrom_eq_append {pos : Position} {cs : List Char} {ps qs : List Piece}
    (h : piecesFrom pos cs = ps ++ qs) :
    ∃ rest, cs = ps.flatMap Piece.text ++ rest ∧
      qs = piecesFrom (pos.advance (ps.flatMap Piece.text)) rest := by
  induction ps generalizing pos cs with
  | nil => exact ⟨cs, rfl, h.symm⟩
  | cons p ps ih =>
    obtain ⟨-, rest, rfl, hps⟩ := piecesFrom_eq_cons h
    obtain ⟨rest', rfl, hqs⟩ := ih hps.symm
    exact ⟨rest', by simp, by rw [List.flatMap_cons, Position.advance_append]; exact hqs⟩

theorem token_of_piecesFrom {pos : Position} {cs : List Char} {t : Token} {ps : List Piece}
    (h : piecesFrom pos cs = .token t :: ps) :
    t.start = pos ∧ t.stop = pos.advance t.text.toList ∧ '\n' ∉ t.text.toList := by
  rcases cs with _ | ⟨c, cs⟩
  · rw [piecesFrom_nil] at h
    cases h
  cases hfirst : Lexeme.first? c cs with
  | none =>
    rw [piecesFrom_of_stray hfirst] at h
    cases h
  | some lexeme =>
    obtain ⟨cls, n⟩ := lexeme
    rw [piecesFrom_of_first? hfirst] at h
    cases cls with
    | ignored => cases h
    | token kind =>
      cases h
      exact ⟨rfl, by simp, by simpa using Lexeme.not_mem_of_first? hfirst⟩

/-- Where a text stands settles the places of its pieces only. -/
theorem map_bare_piecesFrom (pos pos' : Position) (cs : List Char) :
    (piecesFrom pos cs).map Piece.bare = (piecesFrom pos' cs).map Piece.bare := by
  fun_induction piecesFrom pos cs generalizing pos' with
  | case1 => rw [piecesFrom_nil]
  | case2 pos c cs hfirst ih =>
    rw [piecesFrom_of_stray hfirst, List.map_cons, List.map_cons, ih]
    rfl
  | case3 pos c cs cls n hfirst lexeme ih =>
    rw [piecesFrom_of_first? hfirst, List.map_cons, List.map_cons, ih]
    cases cls <;> rfl

/-! ## White space -/

theorem first?_blank {c : Char} (hc : Lexeme.isBlank c = true) (cs : List Char) :
    Lexeme.first? c cs = some (.ignored, Lexeme.run Lexeme.isBlank cs) := by
  simp [Lexeme.first?, hc]

theorem solid_piecesFrom_blank {c : Char} (hc : Lexeme.isBlank c = true) (pos : Position)
    (cs : List Char) : solid (piecesFrom pos (c :: cs)) = solid (piecesFrom (pos.next c) cs) := by
  rw [piecesFrom_of_first? (first?_blank hc cs), Piece.ofLexeme, solid_ignored,
    Position.advance_cons]
  rcases cs with _ | ⟨d, cs⟩
  · rfl
  · cases hd : Lexeme.isBlank d with
    | true =>
      rw [piecesFrom_of_first? (first?_blank hd cs), Piece.ofLexeme, solid_ignored,
        Lexeme.run_cons, if_pos hd]
      rfl
    | false =>
      rw [Lexeme.run_cons, hd]
      rfl

theorem solid_piecesFrom_blanks {bs : List Char} (hbs : ∀ c ∈ bs, Lexeme.isBlank c = true)
    (pos : Position) (cs : List Char) :
    solid (piecesFrom pos (bs ++ cs)) = solid (piecesFrom (pos.advance bs) cs) := by
  induction bs generalizing pos with
  | nil => rfl
  | cons b bs ih =>
    obtain ⟨hb, hbs⟩ := List.forall_mem_cons.mp hbs
    rw [List.cons_append, solid_piecesFrom_blank hb, ih hbs, Position.advance_cons]

/-! ## A change does not reach back -/

theorem solid_piecesFrom_first {pos : Position} {x v v' : List Char} {p : Piece} {ps : List Piece}
    (hv : Lexeme.Replaces v v') (hp : p.stray? = none)
    (h : piecesFrom pos (p.text ++ (x ++ v)) = p :: ps) :
    solid (piecesFrom pos (p.text ++ (x ++ v'))) =
      solid [p] ++ solid (piecesFrom (pos.advance p.text) (x ++ v')) := by
  obtain ⟨c, y, htext⟩ := List.exists_cons_of_ne_nil (piecesFrom_eq_cons h).1
  rw [htext, List.cons_append] at h
  cases hfirst : Lexeme.first? c (y ++ (x ++ v)) with
  | none =>
    rw [piecesFrom_of_stray hfirst] at h
    cases h
    cases hp
  | some lexeme =>
    obtain ⟨cls, n⟩ := lexeme
    rw [piecesFrom_of_first? hfirst] at h
    obtain ⟨rfl, -⟩ := List.cons.inj h
    rw [text_ofLexeme] at htext ⊢
    obtain ⟨d, rest, rfl, -⟩ := hv.inLine
    have hn : n = y.length := by
      have hlength := congrArg List.length (List.cons.inj htext).2
      simp only [List.length_take, List.length_append, List.length_cons] at hlength
      omega
    subst hn
    rw [List.take_left, List.cons_append]
    cases hblank : Lexeme.isBlank c with
    | true =>
      rw [first?_blank hblank, Option.some.injEq, Prod.mk.injEq] at hfirst
      obtain ⟨rfl, hrun⟩ := hfirst
      have hall : ∀ e ∈ c :: y, Lexeme.isBlank e = true := by
        refine List.forall_mem_cons.mpr ⟨hblank, fun e he => ?_⟩
        apply @Lexeme.of_mem_take_run _ (y ++ (x ++ d :: rest))
        rwa [hrun, List.take_left]
      exact solid_piecesFrom_blanks hall pos (x ++ v')
    | false =>
      have hsame : Lexeme.first? c ((y ++ x) ++ v') = some (cls, y.length) :=
        hv.first?_append hblank (by rw [List.append_assoc]; exact hfirst) (by simp)
      rw [List.append_assoc] at hsame
      rw [piecesFrom_of_first? hsame, List.take_left, List.drop_left]
      exact solid_append [_] _

/-- The pieces before a place are the same, ignored ones apart, after a change from there on. -/
theorem solid_piecesFrom_append {pos : Position} {v v' : List Char} {ps qs : List Piece}
    (hv : Lexeme.Replaces v v') (hps : NoStray ps)
    (h : piecesFrom pos (ps.flatMap Piece.text ++ v) = ps ++ qs) :
    solid (piecesFrom pos (ps.flatMap Piece.text ++ v')) =
      solid ps ++ solid (piecesFrom (pos.advance (ps.flatMap Piece.text)) v') := by
  induction ps generalizing pos with
  | nil => rfl
  | cons p ps ih =>
    obtain ⟨hp, hps⟩ := List.forall_mem_cons.mp hps
    rw [List.flatMap_cons, List.append_assoc] at h ⊢
    obtain ⟨-, rest, hrest, hlater⟩ := piecesFrom_eq_cons h
    rw [← List.append_cancel_left hrest] at hlater
    rw [solid_piecesFrom_first hv hp h, ih hps hlater.symm, Position.advance_append,
      ← List.append_assoc, ← solid_append]
    rfl

theorem exists_text_around {source : List Char} {before after : List Piece} {t : Token}
    (h : pieces source = before ++ .token t :: after) :
    ∃ rest, source = before.flatMap Piece.text ++ (t.text.toList ++ rest) ∧
      t.start = Position.start.advance (before.flatMap Piece.text) ∧
      t.stop = t.start.advance t.text.toList ∧ after = piecesFrom t.stop rest ∧
      t.text.toList ≠ [] ∧ '\n' ∉ t.text.toList := by
  obtain ⟨rest, hsource, hpieces⟩ := piecesFrom_eq_append h
  obtain ⟨hstart, hstop, hline⟩ := token_of_piecesFrom hpieces.symm
  obtain ⟨hne, rest', rfl, hafter⟩ := piecesFrom_eq_cons hpieces.symm
  rw [← hstart] at hstop hafter
  exact ⟨rest', hsource, hstart, hstop, by rw [hstop]; exact hafter, hne, hline⟩

theorem Position.advance_ne {cs : List Char} (h : cs ≠ []) (p : Position) :
    p.line < (p.advance cs).line ∨
      (p.advance cs).line = p.line ∧ p.column < (p.advance cs).column := by
  have hle (q : Position) (ds : List Char) : q.line < (q.advance ds).line ∨
      (q.advance ds).line = q.line ∧ q.column ≤ (q.advance ds).column := by
    induction ds generalizing q with
    | nil => exact .inr ⟨rfl, Nat.le_refl _⟩
    | cons d ds ih =>
      have hnext := ih (q.next d)
      rw [advance_cons]
      simp only [next] at hnext ⊢
      split at hnext <;> simp only at hnext ⊢ <;> grind
  obtain ⟨c, cs, rfl⟩ := List.exists_cons_of_ne_nil h
  have hrest := hle (p.next c) cs
  rw [advance_cons]
  simp only [next] at hrest ⊢
  split at hrest <;> simp only at hrest ⊢ <;> grind

theorem exists_append_of_mem_tokensOf {ps : List Piece} {t : Token} (h : t ∈ tokensOf ps) :
    ∃ qs rs, ps = qs ++ .token t :: rs := by
  obtain ⟨p, hp, hpt⟩ := List.mem_filterMap.mp h
  obtain rfl : p = .token t := by
    cases p <;> cases hpt
    rfl
  exact List.append_of_mem hp

theorem start_ne_of_mem_after {source : List Char} {before after : List Piece} {t t' : Token}
    (h : pieces source = before ++ .token t :: after) (ht' : t' ∈ tokensOf after) :
    ¬ (t'.start.line = t.start.line ∧ t'.start.column = t.start.column) := by
  obtain ⟨between, rest, rfl⟩ := exists_append_of_mem_tokensOf ht'
  obtain ⟨-, -, hstart, -, -, hne, -⟩ := exists_text_around h
  have h' : pieces source = (before ++ .token t :: between) ++ .token t' :: rest := by simpa using h
  obtain ⟨-, -, hstart', -⟩ := exists_text_around h'
  have hadvance : t'.start = t.start.advance (t.text.toList ++ between.flatMap Piece.text) := by
    rw [hstart', hstart, ← Position.advance_append]
    simp [Piece.text]
  have hlater := Position.advance_ne (List.append_ne_nil_of_left_ne_nil hne
    (between.flatMap Piece.text)) t.start
  rw [← hadvance] at hlater
  omega

/-! ## A token overwritten by spaces -/

def overwritten (source : List Char) (t : Token) : List Char :=
  source.take t.start.offset ++ List.replicate t.text.toList.length ' ' ++
    source.drop t.stop.offset

theorem Position.advance_of_not_mem {cs : List Char} (h : '\n' ∉ cs) (p : Position) :
    p.advance cs = ⟨p.line, p.column + cs.length, p.offset + cs.length⟩ := by
  induction cs generalizing p with
  | nil => rfl
  | cons c cs ih =>
    obtain ⟨hc, hcs⟩ := not_or.mp (mt List.mem_cons.mpr h)
    rw [Position.advance_cons, Position.next, if_neg (Ne.symm hc), ih hcs, List.length_cons]
    congr 1 <;> simp only <;> omega

theorem offset_advance_start (cs : List Char) : (Position.start.advance cs).offset = cs.length := by
  rw [Position.offset_advance, Position.start, Nat.zero_add]

theorem offset_stop {source : List Char} {before after : List Piece} {t : Token}
    (h : pieces source = before ++ .token t :: after) :
    t.stop.offset = (before.flatMap Piece.text ++ t.text.toList).length := by
  obtain ⟨-, -, hstart, hstop, -⟩ := exists_text_around h
  rw [hstop, Position.offset_advance, hstart, offset_advance_start, List.length_append]

theorem replaces_spaces {cs : List Char} (hne : cs ≠ []) (hline : '\n' ∉ cs) (rest : List Char) :
    Lexeme.Replaces (cs ++ rest) (List.replicate cs.length ' ' ++ rest) := by
  obtain ⟨c, cs, rfl⟩ := List.exists_cons_of_ne_nil hne
  refine ⟨⟨c, cs ++ rest, rfl, ?_⟩, ⟨' ', List.replicate cs.length ' ' ++ rest, rfl, by decide⟩, ?_⟩
  · rintro rfl
    exact hline List.mem_cons_self
  · generalize (c :: cs).length = n
    intro hend
    have hrest : Lexeme.commentEnd <:+: rest := by
      induction n with
      | zero => exact hend
      | succ n ih =>
        rw [List.replicate_succ, List.cons_append, List.infix_cons_iff] at hend
        rcases hend with hinner | hinfix
        · simp [Lexeme.commentEnd] at hinner
        · exact ih hinfix
    exact hrest.trans (List.suffix_append ..).isInfix

/-- A token that is overwritten by spaces is missing among the pieces, and the others stay as and
where they are. -/
theorem solid_pieces_overwritten {source : List Char} {before after : List Piece} {t : Token}
    (h : pieces source = before ++ .token t :: after) (hbefore : NoStray before) :
    solid (pieces (overwritten source t)) = solid before ++ solid after := by
  obtain ⟨rest, hsource, hstart, hstop, hafter, hne, hline⟩ := exists_text_around h
  have htext : overwritten source t = before.flatMap Piece.text ++
      (List.replicate t.text.toList.length ' ' ++ rest) := by
    rw [overwritten, hstop, Position.offset_advance, hstart, offset_advance_start, hsource,
      List.take_left, ← List.drop_drop, List.drop_left, List.drop_left, List.append_assoc]
  rw [pieces, hsource] at h
  have hspaces : ∀ c ∈ List.replicate t.text.toList.length ' ', Lexeme.isBlank c = true := by
    intro c hc
    rw [List.eq_of_mem_replicate hc]
    rfl
  have hplace : t.start.advance (List.replicate t.text.toList.length ' ') = t.stop := by
    rw [hstop, Position.advance_of_not_mem hline, Position.advance_of_not_mem (by simp),
      List.length_replicate]
  rw [pieces, htext, solid_piecesFrom_append (replaces_spaces hne hline rest) hbefore h, ← hstart,
    solid_piecesFrom_blanks hspaces, hplace, hafter]

/-! ## A semicolon put in -/

/-- The text with one more semicolon, right after a token. -/
def withSemicolon (source : List Char) (t : Token) : List Char :=
  source.take t.stop.offset ++ ';' :: source.drop t.stop.offset

def semicolonAfter (t : Token) : Token :=
  Closer.semicolon.token ⟨t.stop, t.stop.next ';'⟩

theorem replaces_semicolon {c : Char} (hc : c = ';' ∨ c = '\x7d') (rest : List Char) :
    Lexeme.Replaces (c :: rest) (c :: ';' :: rest) := by
  have hmark : c ≠ '\n' ∧ Lexeme.isBreak c = true ∧ c ≠ '*' := by
    rcases hc with rfl | rfl <;> decide
  obtain ⟨hline, hbreak, hstar⟩ := hmark
  refine ⟨⟨c, rest, rfl, hline⟩, ⟨c, ';' :: rest, rfl, hbreak⟩, fun hend => ?_⟩
  have hrest : Lexeme.commentEnd <:+: rest := by
    simpa [List.infix_cons_iff, Lexeme.commentEnd, hstar.symm] using hend
  exact hrest.trans (List.suffix_cons c rest).isInfix

theorem piecesFrom_boundary {pos : Position} {t : Token} {rest : List Char} {ps : List Piece}
    (ht : t.kind.isBoundary = true) (h : piecesFrom pos (t.text.toList ++ rest) = .token t :: ps) :
    ∃ c, (c = ';' ∨ c = '\x7d') ∧ t.text.toList = [c] ∧
      ∀ rest', piecesFrom pos (c :: rest') = .token t :: piecesFrom t.stop rest' := by
  obtain ⟨c, y, htext⟩ := List.exists_cons_of_ne_nil (piecesFrom_eq_cons h).1
  change t.text.toList = c :: y at htext
  rw [htext, List.cons_append] at h
  cases hfirst : Lexeme.first? c (y ++ rest) with
  | none =>
    rw [piecesFrom_of_stray hfirst] at h
    cases h
  | some lexeme =>
    obtain ⟨cls, n⟩ := lexeme
    rw [piecesFrom_of_first? hfirst] at h
    cases cls with
    | ignored => cases h
    | token kind =>
      obtain ⟨hpiece, -⟩ := List.cons.inj h
      cases hpiece
      obtain ⟨rfl, hc⟩ := Lexeme.first?_of_isBoundary hfirst ht
      refine ⟨c, hc, by simp, fun rest' => ?_⟩
      have hsame : Lexeme.first? c rest' = some (.token kind, 0) := by
        rcases hc with rfl | rfl
        · rw [Lexeme.first?_semicolon] at hfirst ⊢
          exact hfirst
        · rw [Lexeme.first?_rbrace] at hfirst ⊢
          exact hfirst
      rw [piecesFrom_of_first? hsame]
      rfl

theorem exists_text_around_boundary {source : List Char} {before after : List Piece} {t : Token}
    (h : pieces source = before ++ .token t :: after) (ht : t.kind.isBoundary = true) :
    ∃ c rest, (c = ';' ∨ c = '\x7d') ∧ t.text.toList = [c] ∧
      source = before.flatMap Piece.text ++ c :: rest ∧ after = piecesFrom t.stop rest ∧
      ∀ rest', piecesFrom t.start (c :: rest') = .token t :: piecesFrom t.stop rest' := by
  obtain ⟨rest, hsource, hstart, -, hafter, -, -⟩ := exists_text_around h
  have hfrom : piecesFrom t.start (t.text.toList ++ rest) = .token t :: after := by
    obtain ⟨rest', hrest', hpieces⟩ := piecesFrom_eq_append h
    rw [hsource] at hrest'
    rw [hpieces, hstart, ← List.append_cancel_left hrest']
  obtain ⟨c, hc, hchar, hboundary⟩ := piecesFrom_boundary ht hfrom
  rw [hchar] at hsource
  exact ⟨c, rest, hc, hchar, hsource, hafter, hboundary⟩

theorem text_of_semicolon {source : List Char} {before after : List Piece} {t : Token}
    (h : pieces source = before ++ .token t :: after) (ht : t.kind = .semicolon) :
    t.text = ";" := by
  obtain ⟨c, -, hc, hchar, -, -, hboundary⟩ := exists_text_around_boundary h (by rw [ht]; rfl)
  rcases hc with rfl | rfl
  · exact String.toList_inj.mp hchar
  · have hbrace := hboundary []
    rw [piecesFrom_of_first? (Lexeme.first?_rbrace [])] at hbrace
    have hkind := congrArg Token.kind (Piece.token.inj (List.cons.inj hbrace).1)
    rw [ht] at hkind
    cases hkind

/-- A semicolon that is put in after the end of a statement or of a block is one more piece, and the
others stay, if with other places after it. -/
theorem solid_pieces_withSemicolon {source : List Char} {before after : List Piece} {t : Token}
    (h : pieces source = before ++ .token t :: after) (hbefore : NoStray before)
    (ht : t.kind.isBoundary = true) :
    ∃ rest, after = piecesFrom t.stop rest ∧ solid (pieces (withSemicolon source t)) =
      solid before ++ .token t :: .token (semicolonAfter t) ::
        solid (piecesFrom (t.stop.next ';') rest) := by
  obtain ⟨-, -, hstart, -⟩ := exists_text_around h
  obtain ⟨c, rest, hc, hchar, hsource, hafter, hboundary⟩ := exists_text_around_boundary h ht
  have htext : withSemicolon source t = before.flatMap Piece.text ++ c :: ';' :: rest := by
    rw [withSemicolon, offset_stop h, hchar, hsource,
      List.append_cons (before.flatMap Piece.text) c rest, List.take_left, List.drop_left,
      List.append_assoc]
    rfl
  have hsemicolon : piecesFrom t.stop (';' :: rest) =
      .token (semicolonAfter t) :: piecesFrom (t.stop.next ';') rest := by
    rw [piecesFrom_of_first? (Lexeme.first?_semicolon rest)]
    rfl
  rw [pieces, hsource] at h
  refine ⟨rest, hafter, ?_⟩
  rw [pieces, htext, solid_piecesFrom_append (replaces_semicolon hc rest) hbefore h, ← hstart,
    hboundary, hsemicolon]
  rfl

/-- The places before and after a token, as numbers of characters. -/
def Token.extent (t : Token) : Nat × Nat :=
  (t.start.offset, t.stop.offset)

theorem extents_piecesFrom (pos pos' : Position) {k : Nat} (hk : pos'.offset = pos.offset + k)
    (cs : List Char) :
    (tokensOf (piecesFrom pos' cs)).map Token.extent =
      (tokensOf (piecesFrom pos cs)).map fun t => (t.start.offset + k, t.stop.offset + k) := by
  fun_induction piecesFrom pos cs generalizing pos' with
  | case1 =>
    rw [piecesFrom_nil]
    rfl
  | case2 pos c cs hfirst ih =>
    rw [piecesFrom_of_stray hfirst]
    apply ih
    simp only [Position.next]
    split <;> simp only <;> omega
  | case3 pos c cs cls n hfirst lexeme ih =>
    have hnext : (pos'.advance lexeme).offset = (pos.advance lexeme).offset + k := by
      rw [Position.offset_advance, Position.offset_advance]
      omega
    rw [piecesFrom_of_first? hfirst]
    cases cls with
    | ignored => exact ih _ hnext
    | token kind =>
      have hextent : (pos'.offset, (pos'.advance lexeme).offset) =
          (pos.offset + k, (pos.advance lexeme).offset + k) := by rw [hk, hnext]
      exact List.cons_eq_cons.mpr ⟨hextent, ih _ hnext⟩

/-- What is put in shows among the pieces, with all others before and after it. -/
theorem exists_pieces_withSemicolon {source : List Char} {before after : List Piece} {t : Token}
    (h : pieces source = before ++ .token t :: after) (hbefore : NoStray before)
    (ht : t.kind.isBoundary = true) :
    ∃ before' after', pieces (withSemicolon source t) =
        before' ++ .token (semicolonAfter t) :: after' ∧
      NoStray before' ∧ tokensOf before' = tokensOf before ++ [t] ∧
      (solid after').map Piece.bare = (solid after).map Piece.bare ∧
      (tokensOf after').map Token.extent =
        (tokensOf after).map fun s => (s.start.offset + 1, s.stop.offset + 1) := by
  obtain ⟨rest, rfl, hsolid⟩ := solid_pieces_withSemicolon h hbefore ht
  rw [List.append_cons, solid, List.filter_eq_append_iff] at hsolid
  obtain ⟨first, second, hpieces, hfirst, hsecond⟩ := hsolid
  obtain ⟨skipped, after', rfl, hskipped, -, hafter'⟩ := List.filter_eq_cons_iff.mp hsecond
  have hbefore' : solid (first ++ skipped) = solid before ++ [.token t] := by
    have hnone : solid skipped = [] := List.filter_eq_nil_iff.mpr hskipped
    rw [solid_append, hnone, List.append_nil]
    exact hfirst
  refine ⟨first ++ skipped, after', by rw [hpieces, List.append_assoc], ?_, ?_, ?_, ?_⟩
  · apply noStray_of_solid
    rw [hbefore']
    exact noStray_append.mpr ⟨noStray_solid hbefore, by simp⟩
  · rw [← tokensOf_solid, hbefore', tokensOf_append, tokensOf_solid]
    rfl
  · rw [show solid after' = _ from hafter', map_bare_solid, map_bare_solid,
      map_bare_piecesFrom _ t.stop]
  · rw [← tokensOf_solid, show solid after' = _ from hafter', tokensOf_solid]
    exact extents_piecesFrom _ _ rfl rest

theorem stop_le_start {source : List Char} {before between after : List Piece} {s t : Token}
    (h : pieces source = before ++ .token s :: (between ++ .token t :: after)) :
    s.stop.offset ≤ t.start.offset := by
  obtain ⟨-, -, hstart, hstop, -⟩ := exists_text_around h
  have h' : pieces source = (before ++ .token s :: between) ++ .token t :: after := by simpa using h
  obtain ⟨-, -, hstart', -⟩ := exists_text_around h'
  rw [hstop, hstart, hstart', ← Position.advance_append, offset_advance_start,
    offset_advance_start]
  simp [Piece.text]

end Sema
