import Sema.Proofs.Parsing.StrayCharacters

/-!
# Places of reports

What a recovering parse reports comes in the order of the source and lies inside of it
(`diagnostics_in_order`). Each piece of the source is reported on at most once, at its first
character, and the parse goes through the pieces in order (`exists_reports`); only the end of the
input is reported on several times, always at the last token. A piece with which a report can begin
does not start with a line feed, so its first character is one of the line that it is on
(`Position.exists_line`).
-/

namespace Sema

/-! ## Lines -/

theorem modifyHead_splitOn {pre : List Char} (hpre : '\n' ∉ pre) (cs : List Char) :
    (pre ++ cs).splitOn '\n' = (cs.splitOn '\n').modifyHead (pre ++ ·) := by
  induction pre with
  | nil => cases h : cs.splitOn '\n' <;> simp [h]
  | cons c pre ih =>
    obtain ⟨hc, hpre⟩ := not_or.mp (mt List.mem_cons.mpr hpre)
    rw [List.cons_append, List.splitOn_cons_eq_if_modifyHead, if_neg (by simpa using Ne.symm hc),
      ih hpre, List.modifyHead_modifyHead]
    rfl

namespace Position

theorem line_advance (p : Position) (cs : List Char) :
    (p.advance cs).line = p.line + cs.count '\n' := by
  induction cs generalizing p with
  | nil => rfl
  | cons c cs ih =>
    rw [advance_cons, ih, next, List.count_cons]
    by_cases hc : c = '\n'
    · simp [hc]
      omega
    · simp [hc]

/-- A character that is no line feed stands on the line of its place, in its column. On that line
`pre` comes before the text that starts at `p`. -/
theorem exists_line {c : Char} (hc : c ≠ '\n') {before after pre : List Char} (hpre : '\n' ∉ pre)
    {p : Position} (hp : p.column = pre.length + 1) :
    ∃ text, ((pre ++ (before ++ c :: after)).splitOn '\n')[before.count '\n']? = some text ∧
      1 ≤ (p.advance before).column ∧ (p.advance before).column ≤ text.length := by
  induction before generalizing pre p with
  | nil =>
    obtain ⟨line, rest, hline⟩ := List.exists_cons_of_ne_nil (List.splitOn_ne_nil '\n' after)
    refine ⟨pre ++ c :: line, ?_, ?_⟩
    · rw [modifyHead_splitOn hpre, List.nil_append, List.splitOn_cons_eq_if_modifyHead,
        if_neg (by simpa using hc), hline]
      rfl
    · simp [hp]
  | cons b before ih =>
    rw [advance_cons, List.cons_append]
    by_cases hb : b = '\n'
    · subst hb
      rw [List.splitOn_append_cons_self_of_not_mem hpre, List.count_cons_self,
        List.getElem?_cons_succ]
      exact ih List.not_mem_nil rfl
    · have hpre' : '\n' ∉ pre ++ [b] := by
        simpa using ⟨hpre, Ne.symm hb⟩
      have hp' : (p.next b).column = (pre ++ [b]).length + 1 := by
        simp [next, hb, hp]
      rw [List.append_cons, List.count_cons_of_ne hb]
      exact ih hpre' hp'

/-! ## Places in a text -/

/-- The place of a character of the text that is no line feed. -/
def In (source : List Char) (p : Position) : Prop :=
  ∃ before c after, source = before ++ c :: after ∧ p = start.advance before ∧ c ≠ '\n'

/-- One place comes before another: on an earlier line, or on the same one in an earlier column. -/
def Before (p q : Position) : Prop :=
  p.line < q.line ∨ p.line = q.line ∧ p.column < q.column

theorem Before.trans {p q r : Position} (hpq : p.Before q) (hqr : q.Before r) : p.Before r := by
  unfold Before at *
  omega

theorem before_advance {cs : List Char} (h : cs ≠ []) (p : Position) : p.Before (p.advance cs) :=
  (advance_ne h p).imp_right fun ⟨hline, hcolumn⟩ => ⟨hline.symm, hcolumn⟩

theorem before_of_after {cs : List Char} (h : cs ≠ []) {p q : Position}
    (hq : q = p.advance cs ∨ (p.advance cs).Before q) : p.Before q := by
  have hstart := before_advance h p
  rcases hq with rfl | hq
  · exact hstart
  · exact hstart.trans hq

end Position

/-! ## Places of pieces -/

/-- Where a piece is reported on: a token or a stray character at its start. -/
def Piece.place? : Piece → Option Position
  | token t => some t.start
  | ignored _ => none
  | stray _ pos => some pos

def placesOf (ps : List Piece) : List Position :=
  ps.filterMap Piece.place?

@[simp] theorem placesOf_nil : placesOf [] = [] := rfl

@[simp] theorem placesOf_token (t : Token) (ps : List Piece) :
    placesOf (.token t :: ps) = t.start :: placesOf ps := rfl

@[simp] theorem placesOf_ignored (cs : List Char) (ps : List Piece) :
    placesOf (.ignored cs :: ps) = placesOf ps := rfl

@[simp] theorem placesOf_stray (c : Char) (pos : Position) (ps : List Piece) :
    placesOf (.stray c pos :: ps) = pos :: placesOf ps := rfl

theorem before_placesOf (pos : Position) (cs : List Char) :
    (placesOf (piecesFrom pos cs)).Pairwise Position.Before ∧
      ∀ p ∈ placesOf (piecesFrom pos cs), p = pos ∨ pos.Before p := by
  fun_induction piecesFrom pos cs with
  | case1 => exact ⟨.nil, by simp⟩
  | case2 pos c cs _ ih =>
    have hlater : ∀ p ∈ placesOf (piecesFrom (pos.next c) cs), pos.Before p := fun p hp =>
      Position.before_of_after (List.cons_ne_nil c []) (ih.2 p hp)
    rw [placesOf_stray]
    exact ⟨List.pairwise_cons.mpr ⟨hlater, ih.1⟩,
      List.forall_mem_cons.mpr ⟨.inl rfl, fun p hp => .inr (hlater p hp)⟩⟩
  | case3 pos c cs cls n _ lexeme ih =>
    have hlater : ∀ p ∈ placesOf (piecesFrom (pos.advance lexeme) (cs.drop n)), pos.Before p :=
      fun p hp => Position.before_of_after (List.cons_ne_nil _ _) (ih.2 p hp)
    cases cls with
    | ignored => exact ⟨ih.1, fun p hp => .inr (hlater p hp)⟩
    | token kind =>
      rw [Piece.ofLexeme, placesOf_token]
      exact ⟨List.pairwise_cons.mpr ⟨hlater, ih.1⟩,
        List.forall_mem_cons.mpr ⟨.inl rfl, fun p hp => .inr (hlater p hp)⟩⟩

theorem ne_lineFeed_of_stray_mem {source : List Char} {c : Char} {pos : Position}
    (h : .stray c pos ∈ pieces source) : c ≠ '\n' := by
  obtain ⟨_, _, -, -, hfirst⟩ := exists_of_stray_mem h
  rintro rfl
  rw [first?_blank (by decide)] at hfirst
  cases hfirst

theorem in_of_mem_placesOf {source : List Char} {p : Position} (h : p ∈ placesOf (pieces source)) :
    p.In source := by
  obtain ⟨piece, hpiece, hp⟩ := List.mem_filterMap.mp h
  cases piece with
  | token t =>
    obtain rfl := Option.some.inj hp
    obtain ⟨before, after, hpieces⟩ := List.append_of_mem hpiece
    obtain ⟨rest, hsource, hstart, -, -, hne, hline⟩ := exists_text_around hpieces
    obtain ⟨c, cs, htext⟩ := List.exists_cons_of_ne_nil hne
    rw [htext] at hsource hline
    exact ⟨_, c, cs ++ rest, hsource, hstart, Ne.symm (not_or.mp (mt List.mem_cons.mpr hline)).1⟩
  | ignored cs => cases hp
  | stray c pos =>
    obtain rfl := Option.some.inj hp
    obtain ⟨before, after, hsource, hpos, -⟩ := exists_of_stray_mem hpiece
    exact ⟨before, c, after, hsource, hpos, ne_lineFeed_of_stray_mem hpiece⟩

/-! ## Diagnostics in a text -/

namespace Diagnostic

/-- Where a diagnostic is: its line and its column. -/
def place (d : Diagnostic) : Option Int × Option Int :=
  (d.line, d.column)

/-- One diagnostic comes before another in the text: on an earlier line, or on the same one in an
earlier column. -/
def Before (d e : Diagnostic) : Prop :=
  ∃ line column line' column' : Int,
    d.place = (some line, some column) ∧ e.place = (some line', some column') ∧
      (line < line' ∨ line = line' ∧ column < column')

/-- A diagnostic is at a character of one of the lines of the text. -/
def Within (source : List Char) (d : Diagnostic) : Prop :=
  ∃ (line column : Nat) (text : List Char), d.place = (some ↑line, some ↑column) ∧
    1 ≤ line ∧ line ≤ source.count '\n' + 1 ∧
    (source.splitOn '\n')[line - 1]? = some text ∧ 1 ≤ column ∧ column ≤ text.length

end Diagnostic

def Position.shown (p : Position) : Option Int × Option Int :=
  (some ↑p.line, some ↑p.column)

theorem Position.In.within {source : List Char} {p : Position} (h : p.In source) {d : Diagnostic}
    (hd : d.place = p.shown) : d.Within source := by
  obtain ⟨before, c, after, rfl, rfl, hc⟩ := h
  have hcolumns : start.column = ([] : List Char).length + 1 := rfl
  obtain ⟨text, htext, hcolumn⟩ := @exists_line c hc before after [] List.not_mem_nil start hcolumns
  have hline : (start.advance before).line = 1 + before.count '\n' := line_advance start before
  refine ⟨_, _, text, hd, ?_, ?_, ?_, hcolumn⟩
  · omega
  · rw [hline, List.count_append]
    omega
  · rw [hline, Nat.add_sub_cancel_left]
    exact htext

namespace Parsing

open Automaton

/-! ## Messages -/

theorem toList_missing (mark : Closer) (what : String) :
    (s!"missing '{mark.text}' at {what}").toList =
      s!"missing '{mark.text}' at ".toList ++ what.toList := by
  rw [← String.toList_append]
  rfl

theorem prefix_mismatch (found : String) (expected : List Lookahead) :
    "mismatched input ".toList ++ found.toList <+: (Repair.mismatch found expected).toList := by
  have hopening (a b c d e : String) :
      a.toList ++ b.toList <+: (a ++ b ++ c ++ d ++ e).toList := by
    simp only [String.toList_append, List.append_assoc]
    exact (List.prefix_append_right_inj _).mpr (List.prefix_append _ _)
  exact hopening _ _ _ _ _

def endOpenings : List String :=
  ["missing '\x7d' at <", "missing ';' at <", "missing ')' at <", "mismatched input <"]

def pieceOpenings : List String :=
  ["missing '\x7d' at '", "missing ';' at '", "missing ')' at '", "mismatched input '",
    "token recognition error at: '"]

theorem openings_apart : ∀ a ∈ endOpenings, ∀ b ∈ pieceOpenings,
    ¬a.toList <+: b.toList ∧ ¬b.toList <+: a.toList := by
  decide +kernel

theorem AtEnd.exists_opening {message : String} (h : AtEnd message) :
    ∃ a ∈ endOpenings, a.toList <+: message.toList := by
  rcases h with ⟨mark, rfl⟩ | ⟨expected, rfl⟩
  · cases mark <;> decide +kernel
  · refine ⟨"mismatched input <", by simp [endOpenings], .trans ?_ (prefix_mismatch _ _)⟩
    decide +kernel

theorem not_atEnd_of_opening {message b : String} (hb : b ∈ pieceOpenings)
    (h : b.toList <+: message.toList) : ¬AtEnd message := by
  intro hend
  obtain ⟨a, ha, hopening⟩ := hend.exists_opening
  obtain ⟨hab, hba⟩ := openings_apart a ha b hb
  exact (List.prefix_or_prefix_of_prefix hopening h).elim hab hba

theorem quote_prefix_shown (t : Token) : ['\''] <+: (Repair.shown t).toList := by
  rw [Repair.shown, String.toList_append, String.toList_append, List.append_assoc]
  exact List.prefix_append _ _

theorem not_atEnd_missing (mark : Closer) (t : Token) :
    ¬AtEnd s!"missing '{mark.text}' at {Repair.shown t}" := by
  have hopening : s!"missing '{mark.text}' at ".toList ++ ['\''] <+:
      s!"missing '{mark.text}' at {Repair.shown t}".toList := by
    rw [toList_missing, List.prefix_append_right_inj]
    exact quote_prefix_shown t
  rw [← String.toList_singleton, ← String.toList_append] at hopening
  refine not_atEnd_of_opening ?_ hopening
  cases mark <;> decide +kernel

theorem not_atEnd_mismatch (t : Token) (expected : List Lookahead) :
    ¬AtEnd (Repair.mismatch (Repair.shown t) expected) := by
  have hopening : "mismatched input ".toList ++ ['\''] <+:
      "mismatched input ".toList ++ (Repair.shown t).toList := by
    rw [List.prefix_append_right_inj]
    exact quote_prefix_shown t
  refine not_atEnd_of_opening (b := "mismatched input '") (by simp [pieceOpenings]) ?_
  refine .trans ?_ (hopening.trans (prefix_mismatch _ expected))
  decide +kernel

theorem not_atEnd_stray (c : Char) : ¬AtEnd s!"token recognition error at: '{c}'" := by
  refine not_atEnd_of_opening (b := "token recognition error at: '") (by simp [pieceOpenings]) ?_
  have hmessage : s!"token recognition error at: '{c}'" =
      "token recognition error at: '" ++ (toString c ++ "'") := String.append_assoc ..
  rw [hmessage, String.toList_append]
  exact List.prefix_append _ _

/-! ## Reports on pieces -/

theorem exists_report_take (t : Token) (σ : Stack) :
    (take t σ).1.flatMap Repair.diagnostics = [] ∨
      ∃ d, (take t σ).1.flatMap Repair.diagnostics = [d] ∧ d.place = t.start.shown ∧
        ¬AtEnd d.message := by
  cases hfeed : σ.feed t with
  | ok fed =>
    rw [take_of_feed_ok hfeed]
    exact .inl rfl
  | error settled =>
    right
    rw [take_of_feed_error hfeed, List.flatMap_singleton, repair]
    split
    · exact ⟨_, rfl, rfl, not_atEnd_missing _ t⟩
    · split
      · exact ⟨_, rfl, rfl, not_atEnd_mismatch t _⟩
      · exact ⟨_, rfl, rfl, not_atEnd_mismatch t _⟩

/-- A parse first reports on pieces, in their order and on each at most once, and then on the end of
the input. -/
theorem exists_reports (last : Span) (σ : Stack) (ps : List Piece) :
    ∃ early : List Diagnostic,
      (recoverFrom last σ ps).repairs.flatMap Repair.diagnostics =
        early ++ (close (lastSpan last ps) (takeAll σ (tokensOf ps))).repairs.flatMap
          Repair.diagnostics ∧
      (early.map Diagnostic.place).Sublist ((placesOf ps).map Position.shown) ∧
      ∀ d ∈ early, ¬AtEnd d.message := by
  induction ps generalizing last σ with
  | nil => exact ⟨[], rfl, .slnil, by simp⟩
  | cons p ps ih =>
    cases p with
    | ignored cs => exact ih last σ
    | stray c pos =>
      obtain ⟨early, hreports, hplaces, hearly⟩ := ih last σ
      obtain ⟨d, hd, hplace, hmessage⟩ : ∃ d, (Repair.skipped c pos).diagnostics = [d] ∧
          d.place = pos.shown ∧ ¬AtEnd d.message := ⟨_, rfl, rfl, not_atEnd_stray c⟩
      refine ⟨d :: early, ?_, ?_, List.forall_mem_cons.mpr ⟨hmessage, hearly⟩⟩
      · rw [recoverFrom, List.flatMap_cons, hreports, hd]
        rfl
      · rw [List.map_cons, hplace]
        exact hplaces.cons_cons _
    | token t =>
      obtain ⟨early, hreports, hplaces, hearly⟩ := ih t.span (take t σ).2
      rw [recoverFrom_token, List.flatMap_append, hreports, lastSpan_token, tokensOf_token,
        placesOf_token, List.map_cons]
      rcases exists_report_take t σ with hnone | ⟨d, hd, hplace, hmessage⟩
      · rw [hnone]
        exact ⟨early, rfl, hplaces.cons _, hearly⟩
      · rw [hd]
        refine ⟨d :: early, rfl, ?_, List.forall_mem_cons.mpr ⟨hmessage, hearly⟩⟩
        rw [List.map_cons, hplace]
        exact hplaces.cons_cons _

theorem exists_last_of_mem_close {source : List Char} {d : Diagnostic}
    (h : d ∈ (close (lastSpan ⟨.start, .start⟩ (pieces source))
      (takeAll [] (tokensOf (pieces source)))).repairs.flatMap Repair.diagnostics) :
    ∃ t, (tokensOf (pieces source)).getLast? = some t ∧ d.place = t.start.shown ∧
      AtEnd d.message := by
  obtain ⟨hd, hend⟩ := of_mem_diagnostics_close h
  cases hlast : (tokensOf (pieces source)).getLast? with
  | some t =>
    refine ⟨t, rfl, ?_, hend⟩
    rw [hd, lastSpan, hlast]
    rfl
  | none =>
    rw [List.getLast?_eq_none_iff.mp hlast] at h
    obtain ⟨tree, htree⟩ := exists_finish_nil
    rw [takeAll, List.foldl_nil, close, htree] at h
    cases h

end Parsing

/-! ## Diagnostics of a source -/

theorem Diagnostic.not_before_self (d : Diagnostic) : ¬d.Before d := by
  rintro ⟨line, column, line', column', h, h', hlater⟩
  rw [h] at h'
  simp only [Prod.mk.injEq, Option.some.injEq] at h'
  omega

theorem Diagnostic.before_of_places {d e : Diagnostic} {p q : Position} (hd : d.place = p.shown)
    (he : e.place = q.shown) (hpq : p.Before q) : d.Before e := by
  refine ⟨_, _, _, _, hd, he, ?_⟩
  unfold Position.Before at hpq
  omega

theorem pairwise_before {ds : List Diagnostic} {places : List Position}
    (hplaces : places.Pairwise Position.Before)
    (h : (ds.map Diagnostic.place).Sublist (places.map Position.shown)) :
    ds.Pairwise Diagnostic.Before := by
  obtain ⟨kept, hkept, hds⟩ := List.sublist_map_iff.mp h
  replace hplaces := hplaces.sublist hkept
  clear h hkept
  induction ds generalizing kept with
  | nil => exact .nil
  | cons d ds ih =>
    obtain ⟨p, ps, rfl, hd, hps⟩ := List.map_eq_cons_iff.mp hds.symm
    obtain ⟨hfirst, hrest⟩ := List.pairwise_cons.mp hplaces
    refine List.pairwise_cons.mpr ⟨fun e he => ?_, ih ps hps.symm hrest⟩
    obtain ⟨q, hq, hplace⟩ := List.mem_map.mp (hps ▸ List.mem_map_of_mem he)
    exact Diagnostic.before_of_places hd.symm hplace.symm (hfirst q hq)

/-- Of the reports of a recovering parse, those on pieces are all kept, and those on the end of the
input once each. -/
theorem exists_kept (source : List Char) :
    ∃ early raw : List Diagnostic,
      (Parsing.recover (pieces source)).repairs.flatMap Repair.diagnostics = early ++ raw ∧
      (Parsing.recover (pieces source)).diagnostics = early ++ raw.eraseDups ∧
      (early.map Diagnostic.place).Sublist ((placesOf (pieces source)).map Position.shown) ∧
      (∀ d ∈ early, ¬Parsing.AtEnd d.message) ∧
      ∀ d ∈ raw, ∃ t, (tokensOf (pieces source)).getLast? = some t ∧ d.place = t.start.shown ∧
        Parsing.AtEnd d.message := by
  obtain ⟨early, hreports, hplaces, hearly⟩ :=
    Parsing.exists_reports ⟨.start, .start⟩ [] (pieces source)
  generalize hraw : (Parsing.close _ _).repairs.flatMap Repair.diagnostics = raw at hreports
  have hlast : ∀ d ∈ raw, ∃ t, (tokensOf (pieces source)).getLast? = some t ∧
      d.place = t.start.shown ∧ Parsing.AtEnd d.message := fun d hd =>
    Parsing.exists_last_of_mem_close (hraw ▸ hd)
  have hkept : (Parsing.recover (pieces source)).diagnostics = early ++ raw.eraseDups := by
    have hnodup : (early.map id).Nodup := by
      rw [List.map_id]
      refine (pairwise_before (before_placesOf .start source).1 hplaces).imp fun {d e} hbefore => ?_
      rintro rfl
      exact d.not_before_self hbefore
    have hapart : ∀ d ∈ raw, d ∉ early.map id ++ [] := by
      intro d hd hmem
      obtain ⟨_, _, _, hend⟩ := hlast d hd
      exact hearly d (by simpa using hmem) hend
    rw [Recovered.diagnostics, Repair.report_eq_firsts, Parsing.recover, hreports, firsts_append,
      firsts_of_nodup hnodup (by simp), firsts_id_eq_eraseDups,
      List.filter_eq_self.mpr fun d hd => decide_eq_true (hapart d hd)]
  exact ⟨early, raw, hreports, hkept, hplaces, hearly, hlast⟩

/-- What a recovering parse reports is first on pieces of the source, each report behind the one
before, and then on the end of the input, there always at the last token. All of it is at characters
of the source. So a report comes again only if it is one on the end of the input. -/
theorem diagnostics_in_order (source : List Char) :
    ∃ early raw : List Diagnostic,
      (Parsing.recover (pieces source)).repairs.flatMap Repair.diagnostics = early ++ raw ∧
      (Parsing.recover (pieces source)).diagnostics = early ++ raw.eraseDups ∧
      (∀ d ∈ early, ¬Parsing.AtEnd d.message) ∧ (∀ d ∈ raw, Parsing.AtEnd d.message) ∧
      early.Pairwise Diagnostic.Before ∧
      (∀ d ∈ raw, ∃ t, (tokensOf (pieces source)).getLast? = some t ∧
        d.line = some ↑t.start.line ∧ d.column = some ↑t.start.column) ∧
      ∀ d ∈ (Parsing.recover (pieces source)).diagnostics, d.Within source := by
  obtain ⟨early, raw, hreports, hkept, hplaces, hearly, hlast⟩ := exists_kept source
  have hordered := pairwise_before (before_placesOf .start source).1 hplaces
  refine ⟨early, raw, hreports, hkept, hearly, ?_, hordered, ?_, ?_⟩
  · intro d hd
    obtain ⟨_, _, _, hend⟩ := hlast d hd
    exact hend
  · intro d hd
    obtain ⟨t, ht, hplace, -⟩ := hlast d hd
    exact ⟨t, ht, congrArg Prod.fst hplace, congrArg Prod.snd hplace⟩
  · intro d hd
    rw [hkept, List.mem_append, List.mem_eraseDups] at hd
    obtain ⟨p, hp, hplace⟩ : ∃ p ∈ placesOf (pieces source), p.shown = d.place := by
      rcases hd with hd | hd
      · exact List.mem_map.mp (hplaces.subset (List.mem_map_of_mem hd))
      · obtain ⟨t, ht, hplace, -⟩ := hlast d hd
        obtain ⟨piece, hpiece, hpt⟩ := List.mem_filterMap.mp (List.mem_of_getLast? ht)
        cases piece <;> cases hpt
        exact ⟨t.start, List.mem_filterMap.mpr ⟨_, hpiece, rfl⟩, hplace.symm⟩
    exact (in_of_mem_placesOf hp).within hplace.symm

end Sema
