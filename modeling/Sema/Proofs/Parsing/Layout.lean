import Sema.Proofs.Lexical.LongestMatch
import Sema.Proofs.Parsing.Outcomes

/-!
# Layout

White space that is put in after a token changes nothing but places. Every lexeme before that place
is still the same, the characters with which no lexeme starts included (`first?_insert`), so the
pieces of the text differ in white space and in places only (`solid_pieces_spaced`). Nor do places
decide what is reported: what a parse reports twice it reports at the end of the input, and there
all reports are at one place (`said_diagnostics`).
-/

namespace Sema

namespace Lexeme

variable {bs x v v' : List Char} {c : Char} {n : Nat}

/-! ## White space in a text -/

theorem splits_blanks (hne : bs ≠ []) (hbs : ∀ b ∈ bs, isBlank b = true) (v : List Char) :
    Splits v (bs ++ v) := by
  constructor
  · obtain ⟨b, bs, rfl⟩ := List.exists_cons_of_ne_nil hne
    exact ⟨b, bs ++ v, rfl, by simp [isBreak, hbs b List.mem_cons_self]⟩
  · clear hne
    induction bs with
    | nil => exact id
    | cons b bs ih =>
      obtain ⟨hb, hbs⟩ := List.forall_mem_cons.mp hbs
      rw [List.cons_append, List.infix_cons_iff]
      rintro (hstart | hinfix)
      · obtain rfl : '*' = b := (List.cons_prefix_cons.mp hstart).1
        cases hb
      · exact ih hbs hinfix

theorem run_append_of_lt {p : Char → Bool} (hn : run p (x ++ v) < x.length) :
    run p (x ++ v') = run p (x ++ v) := by
  induction x with
  | nil => simp at hn
  | cons d x ih =>
    rw [List.cons_append, run_cons] at hn
    rw [List.cons_append, List.cons_append, run_cons, run_cons]
    split
    · next hd =>
      rw [if_pos hd, List.length_cons] at hn
      rw [ih (by omega)]
    · rfl

theorem comment?_append_of_lt (h : comment? (x ++ v) = some n) (hn : n < x.length) :
    comment? (x ++ v') = some n := by
  rcases x with _ | ⟨d, x⟩
  · simp at hn
  rw [List.cons_append] at h ⊢
  rw [List.length_cons] at hn
  by_cases hslash : d = '/'
  · subst hslash
    obtain rfl : 1 + run (· != '\n') (x ++ v) = n := Option.some.inj h
    have hrun : run (· != '\n') (x ++ v) < x.length := by omega
    rw [comment?, run_append_of_lt hrun]
  by_cases hstar : d = '*'
  · subst hstar
    obtain ⟨m, hm, rfl⟩ := Option.map_eq_some_iff.mp h
    rw [comment?, blockEnd?_append hm (by omega)]
    rfl
  · rw [comment?] at h <;> simp_all

/-! ## Quotes without an end -/

theorem stringEnd?_blanks (hbs : ∀ b ∈ bs, isBlank b = true) (h : stringEnd? v = none) :
    stringEnd? (bs ++ v) = none := by
  induction bs with
  | nil => exact h
  | cons b bs ih =>
    obtain ⟨hb, hbs⟩ := List.forall_mem_cons.mp hbs
    rw [List.cons_append]
    by_cases hline : b = '\n'
    · subst hline
      simp [stringEnd?]
    · have hquote : b ≠ '"' := by
        rintro rfl
        cases hb
      have hescape : b ≠ '\\' := by
        rintro rfl
        cases hb
      rw [stringEnd?_cons hquote hline hescape, ih hbs]
      rfl

/-- A quote that has no end has none afterwards, if the white space does not come right after a
backslash. -/
theorem stringEnd?_insert (hbs : ∀ b ∈ bs, isBlank b = true) (hx : x.getLast? ≠ some '\\')
    (h : stringEnd? (x ++ v) = none) : stringEnd? (x ++ (bs ++ v)) = none := by
  fun_induction stringEnd? x with
  | case1 =>
    rw [List.nil_append] at h ⊢
    exact stringEnd?_blanks hbs h
  | case2 rest => simp [stringEnd?] at h
  | case3 rest => simp [stringEnd?]
  | case4 => exact absurd rfl hx
  | case5 rest => simp [stringEnd?]
  | case6 d rest hd ih =>
    have hrest : rest.getLast? ≠ some '\\' := by
      intro hlast
      simp [List.getLast?_cons, hlast] at hx
    rw [List.cons_append, List.cons_append, stringEnd?_escape hd, Option.map_eq_none_iff] at h ⊢
    exact ih hrest h
  | case7 d rest hquote hline hlast _ hescape ih =>
    have hd : d ≠ '\\' := by
      rintro rfl
      rcases rest with _ | ⟨e, rest⟩
      · exact hlast rfl rfl
      · exact hescape e rest rfl rfl
    have hrest : rest.getLast? ≠ some '\\' := by
      intro hlast
      simp [List.getLast?_cons, hlast] at hx
    rw [List.cons_append, stringEnd?_cons hquote hline hd, Option.map_eq_none_iff] at h ⊢
    exact ih hrest h

/-! ## Lexemes before white space -/

/-- Whether a text ends with a character other than a backslash. -/
def EndsPlain (cs : List Char) : Prop :=
  ∃ c, cs.getLast? = some c ∧ c ≠ '\\'

theorem EndsPlain.append {cs : List Char} (h : EndsPlain cs) (ds : List Char) :
    EndsPlain (ds ++ cs) := by
  obtain ⟨c, hlast, hc⟩ := h
  exact ⟨c, by rw [List.getLast?_append, hlast]; rfl, hc⟩

theorem first?_insert_none (hne : bs ≠ []) (hbs : ∀ b ∈ bs, isBlank b = true) (hx : EndsPlain x)
    (h : first? c (x ++ v) = none) : first? c (x ++ (bs ++ v)) = none := by
  obtain ⟨last, hlast, hplain⟩ := hx
  obtain ⟨hblank, hword, hdigit⟩ := classes_of_first? h
  by_cases hquote : c = '"'
  · subst hquote
    rw [first?_quote, Option.map_eq_none_iff] at h ⊢
    exact stringEnd?_insert hbs (by simpa [hlast] using hplain) h
  rw [first?_mark hblank hword hdigit hquote] at h ⊢
  split at h
  · cases h
  · next hcomment =>
    have hnone : (if c == '/' then comment? (x ++ (bs ++ v)) else none) = none := by
      split at hcomment
      · next hslash =>
        rw [if_pos hslash, (splits_blanks hne hbs v).comment?_eq_none hcomment]
      · next hslash => rw [if_neg hslash]
    rw [hnone]
    rcases x with _ | ⟨d, x⟩
    · cases hlast
    · exact h

/-- A token that ends at a place or before it, and white space or a comment that ends before it,
are the same after white space is put in there. -/
theorem first?_insert {cls : LexemeClass} (hne : bs ≠ []) (hbs : ∀ b ∈ bs, isBlank b = true)
    (h : first? c (x ++ v) = some (cls, n)) (hn : n ≤ x.length)
    (hignored : cls = .ignored → n < x.length) : first? c (x ++ (bs ++ v)) = some (cls, n) := by
  cases hblank : isBlank c with
  | true =>
    rw [first?, if_pos hblank] at h ⊢
    cases h
    rw [run_append_of_lt (hignored rfl)]
  | false =>
    exact (splits_blanks hne hbs v).first?_append hblank h hn fun hcls hcomment =>
      comment?_append_of_lt hcomment (hignored hcls)

theorem endsPlain_of_spells {kind : Terminal} {cs : List Char} (h : kind.Spells cs) :
    EndsPlain cs := by
  have hdigit : DecimalDigit.isDigit '\\' = false := by decide
  have hplain {c : Char} {rest : List Char} (hmem : '\\' ∉ c :: rest) : EndsPlain (c :: rest) :=
    ⟨_, List.getLast?_eq_some_getLast (List.cons_ne_nil c rest),
      ne_of_mem_of_not_mem (List.getLast_mem _) hmem⟩
  cases h with
  | keyword mem =>
    obtain ⟨c, rest, rfl, -, hparts⟩ := word_of_mem_keywords mem
    exact hplain fun hmem => by cases hparts _ hmem
  | mark mem =>
    have hall : ∀ entry ∈ Terminal.marks, entry.1 ≠ [] ∧ '\\' ∉ entry.1 := by decide +kernel
    obtain ⟨hne, hmem⟩ := hall _ mem
    obtain ⟨c, rest, rfl⟩ := List.exists_cons_of_ne_nil hne
    exact hplain hmem
  | name start rest =>
    refine hplain fun hmem => ?_
    rcases List.mem_cons.mp hmem with rfl | hmem
    · cases start
    · cases rest _ hmem
  | intLit digits =>
    refine hplain fun hmem => ?_
    rw [digits _ hmem] at hdigit
    cases hdigit
  | @floatLit c d cs ds whole fraction =>
    have hend : EndsPlain (d :: ds) := hplain fun hmem => by
      rw [fraction _ hmem] at hdigit
      cases hdigit
    exact (hend.append ['.']).append (c :: cs)
  | @stringLit body _ => exact .append ⟨'"', rfl, by decide⟩ ('"' :: body)

end Lexeme

/-! ## Pieces -/

/-- The text in which `bs` is put in right after a token. -/
def spaced (source : List Char) (t : Token) (bs : List Char) : List Char :=
  source.take t.stop.offset ++ bs ++ source.drop t.stop.offset

section Pieces

variable {bs : List Char} {pos : Position} {t : Token} {v : List Char} {qs : List Piece}

/-- The first piece is the same after white space is put in behind it, if it is a token, or if more
follows before the white space. -/
theorem piecesFrom_first_insert {p : Piece} {z : List Char} {ps : List Piece} (hne : bs ≠ [])
    (hbs : ∀ b ∈ bs, Lexeme.isBlank b = true) (h : piecesFrom pos (p.text ++ (z ++ v)) = p :: ps)
    (hz : p.token?.isSome ∨ Lexeme.EndsPlain z) :
    piecesFrom pos (p.text ++ (z ++ (bs ++ v))) =
      p :: piecesFrom (pos.advance p.text) (z ++ (bs ++ v)) := by
  obtain ⟨c, y, htext⟩ := List.exists_cons_of_ne_nil (piecesFrom_eq_cons h).1
  rw [htext, List.cons_append, ← List.append_assoc] at h ⊢
  cases hfirst : Lexeme.first? c ((y ++ z) ++ v) with
  | none =>
    rw [piecesFrom_of_stray hfirst] at h
    cases h
    cases htext
    have hsame := Lexeme.first?_insert_none hne hbs (hz.resolve_left nofun) hfirst
    exact piecesFrom_of_stray hsame
  | some lexeme =>
    obtain ⟨cls, n⟩ := lexeme
    rw [piecesFrom_of_first? hfirst] at h
    obtain ⟨rfl, -⟩ := List.cons.inj h
    rw [text_ofLexeme] at htext
    have hlength := congrArg List.length (List.cons.inj htext).2
    rw [List.length_take, List.length_append, List.length_append] at hlength
    obtain ⟨hn, hignored⟩ : n = y.length ∧ (cls = .ignored → n < (y ++ z).length) := by
      rw [List.length_append]
      cases cls with
      | token kind =>
        have hle := Lexeme.le_length_of_first? hfirst
        rw [List.length_append, List.length_append] at hle
        exact ⟨by omega, nofun⟩
      | ignored =>
        obtain ⟨last, hlast, -⟩ := hz.resolve_left nofun
        have hpos := List.length_pos_of_mem (List.mem_of_getLast? hlast)
        exact ⟨by omega, fun _ => by omega⟩
    subst hn
    have hsame := Lexeme.first?_insert hne hbs hfirst (by simp) hignored
    rw [piecesFrom_of_first? hsame, List.append_assoc, List.append_assoc, List.take_left,
      List.take_left, List.drop_left]

theorem piecesFrom_insert {ps : List Piece} (hne : bs ≠ [])
    (hbs : ∀ b ∈ bs, Lexeme.isBlank b = true) (ht : Lexeme.EndsPlain t.text.toList)
    (h : piecesFrom pos (ps.flatMap Piece.text ++ (t.text.toList ++ v)) = ps ++ .token t :: qs) :
    piecesFrom pos (ps.flatMap Piece.text ++ (t.text.toList ++ (bs ++ v))) =
      ps ++ .token t :: piecesFrom t.stop (bs ++ v) := by
  induction ps generalizing pos with
  | nil =>
    have hstop := (token_of_piecesFrom h).2.1
    have hfirst := @piecesFrom_first_insert bs pos v (.token t) [] qs hne hbs h (.inl rfl)
    rw [hstop]
    exact hfirst
  | cons p ps ih =>
    rw [List.flatMap_cons, List.append_assoc] at h ⊢
    obtain ⟨-, rest, hrest, hlater⟩ := piecesFrom_eq_cons h
    rw [← List.append_cancel_left hrest] at hlater
    rw [← List.append_assoc _ t.text.toList] at h ⊢
    rw [piecesFrom_first_insert hne hbs h (.inr (ht.append _)), List.append_assoc, ih hlater.symm]
    rfl

/-- White space that is put in after a token changes the pieces in white space and in places
only. -/
theorem solid_pieces_spaced {source : List Char} (ht : t ∈ tokensOf (pieces source))
    (hbs : ∀ b ∈ bs, Lexeme.isBlank b = true) :
    (solid (pieces (spaced source t bs))).map Piece.bare =
      (solid (pieces source)).map Piece.bare := by
  by_cases hne : bs = []
  · rw [spaced, hne, List.append_nil, List.take_append_drop]
  obtain ⟨before, after, h⟩ := exists_append_of_mem_tokensOf ht
  obtain ⟨rest, hsource, -, -, hafter, -, -⟩ := exists_text_around h
  have hspells : t.kind.Spells t.text.toList := by
    cases Piece.cut_of_pieces h with
    | token spells _ _ _ _ => exact spells
  have htext : spaced source t bs =
      before.flatMap Piece.text ++ (t.text.toList ++ (bs ++ rest)) := by
    rw [spaced, offset_stop h, hsource, ← List.append_assoc _ t.text.toList, List.take_left,
      List.drop_left]
    simp only [List.append_assoc]
  have hpieces : pieces (spaced source t bs) =
      before ++ .token t :: piecesFrom t.stop (bs ++ rest) := by
    rw [pieces, hsource] at h
    rw [htext]
    exact piecesFrom_insert hne hbs (Lexeme.endsPlain_of_spells hspells) h
  rw [hpieces, h, hafter, solid_append, solid_append, solid_token, solid_token,
    solid_piecesFrom_blanks hbs, List.map_append, List.map_append, List.map_cons, List.map_cons,
    map_bare_solid (piecesFrom _ rest), map_bare_solid (piecesFrom _ rest),
    map_bare_piecesFrom _ t.stop]

end Pieces

/-! ## Reports without places -/

def Diagnostic.said (d : Diagnostic) : Code × String :=
  (d.code, d.message)

theorem Diagnostic.eq_of_said {d e : Diagnostic} (hplace : d.place = e.place)
    (h : d.said = e.said) : d = e := by
  cases d
  cases e
  simp only [place, said, Prod.mk.injEq] at hplace h
  simp only [Diagnostic.mk.injEq]
  exact ⟨h.1, h.2, hplace⟩

theorem map_said_eraseDups {raw : List Diagnostic}
    (h : ∀ d ∈ raw, ∀ e ∈ raw, d.place = e.place) :
    raw.eraseDups.map Diagnostic.said = firsts id [] (raw.map Diagnostic.said) := by
  have hkeys : firsts id [] raw = firsts Diagnostic.said [] raw :=
    firsts_congr_key [] fun d hd e he =>
      ⟨congrArg Diagnostic.said,
        Diagnostic.eq_of_said (h d (by simpa using hd) e (by simpa using he))⟩
  have hraw : raw.eraseDups = firsts id [] raw := by
    rw [firsts_id_eq_eraseDups, List.filter_eq_self.mpr (by simp)]
  rw [hraw, hkeys]
  exact map_firsts id Diagnostic.said [] raw

theorem Repair.said_bare (done : Repair) :
    done.bare.diagnostics.map Diagnostic.said = done.diagnostics.map Diagnostic.said := by
  cases done with
  | closed marks pos =>
    simp only [bare, diagnostics, List.map_map]
    rfl
  | _ => rfl

theorem said_of_bare_eq {repairs repairs' : List Repair}
    (h : repairs.map Repair.bare = repairs'.map Repair.bare) :
    (repairs.flatMap Repair.diagnostics).map Diagnostic.said =
      (repairs'.flatMap Repair.diagnostics).map Diagnostic.said := by
  have hsaid (repairs : List Repair) : (repairs.flatMap Repair.diagnostics).map Diagnostic.said =
      (repairs.map Repair.bare).flatMap fun done => done.diagnostics.map Diagnostic.said := by
    rw [List.map_flatMap, List.flatMap_map]
    exact List.flatMap_congr fun done _ => (done.said_bare).symm
  rw [hsaid, hsaid, h]

theorem append_inj_of_forall {α : Type} {P : α → Prop} {as bs as' bs' : List α}
    (h : as ++ bs = as' ++ bs') (has : ∀ a ∈ as, ¬P a) (hbs : ∀ b ∈ bs, P b)
    (has' : ∀ a ∈ as', ¬P a) (hbs' : ∀ b ∈ bs', P b) : as = as' ∧ bs = bs' := by
  induction as generalizing as' with
  | nil =>
    rcases as' with _ | ⟨a', as'⟩
    · exact ⟨rfl, h⟩
    · obtain rfl : bs = a' :: (as' ++ bs') := h
      exact absurd (hbs a' List.mem_cons_self) (has' a' List.mem_cons_self)
  | cons a as ih =>
    rcases as' with _ | ⟨a', as'⟩
    · obtain rfl : a :: (as ++ bs) = bs' := h
      exact absurd (hbs' a List.mem_cons_self) (has a List.mem_cons_self)
    · obtain ⟨rfl, hrest⟩ := List.cons.inj h
      obtain ⟨rfl, rfl⟩ := ih hrest (fun b hb => has b (List.mem_cons_of_mem _ hb))
        fun b hb => has' b (List.mem_cons_of_mem _ hb)
      exact ⟨rfl, rfl⟩

theorem exists_said (source : List Char) :
    ∃ early raw : List (Code × String),
      ((Parsing.recover (pieces source)).repairs.flatMap Repair.diagnostics).map Diagnostic.said =
        early ++ raw ∧
      (Parsing.recover (pieces source)).diagnostics.map Diagnostic.said =
        early ++ firsts id [] raw ∧
      (∀ said ∈ early, ¬Parsing.AtEnd said.2) ∧ ∀ said ∈ raw, Parsing.AtEnd said.2 := by
  obtain ⟨early, raw, hreports, hkept, -, hearly, hlast⟩ := exists_kept source
  have hplace : ∀ d ∈ raw, ∀ e ∈ raw, d.place = e.place := by
    intro d hd e he
    obtain ⟨t, ht, hd, -⟩ := hlast d hd
    obtain ⟨t', ht', he, -⟩ := hlast e he
    rw [hd, he, Option.some.inj (ht.symm.trans ht')]
  refine ⟨early.map Diagnostic.said, raw.map Diagnostic.said, ?_, ?_, ?_, ?_⟩
  · rw [hreports, List.map_append]
  · rw [hkept, List.map_append, map_said_eraseDups hplace]
  · exact List.forall_mem_map.mpr hearly
  · refine List.forall_mem_map.mpr fun d hd => ?_
    obtain ⟨-, -, -, hend⟩ := hlast d hd
    exact hend

/-- What is kept of the reports is settled by what the repairs say. -/
theorem said_diagnostics {source source' : List Char}
    (h : (Parsing.recover (pieces source)).repairs.map Repair.bare =
      (Parsing.recover (pieces source')).repairs.map Repair.bare) :
    (Parsing.recover (pieces source)).diagnostics.map Diagnostic.said =
      (Parsing.recover (pieces source')).diagnostics.map Diagnostic.said := by
  obtain ⟨early, raw, hreports, hkept, hearly, hraw⟩ := exists_said source
  obtain ⟨early', raw', hreports', hkept', hearly', hraw'⟩ := exists_said source'
  have hsaid := said_of_bare_eq h
  rw [hreports, hreports'] at hsaid
  obtain ⟨rfl, rfl⟩ := append_inj_of_forall hsaid hearly hraw hearly' hraw'
  rw [hkept, hkept']

/-! ## Outcomes without places -/

/-- What a parse gives, up to places and the texts of initializers: the program, and what the
diagnostics say. -/
def Parsed.said (r : Parsed) : Option Program × List (Code × String) :=
  (r.program.map Program.bare, r.diagnostics.map Diagnostic.said)

theorem kinds_and_texts_listed (source : List Char) :
    (tokenListing source).map (fun l => (l.kind, l.text)) =
      (tokensOf ((solid (pieces source)).map Piece.bare)).map fun t => (t.kind.label, t.text) := by
  rw [tokenListing_eq, tokensOf_map_bare, tokensOf_solid, List.map_map, List.map_map]
  rfl

/-- White space that is put in right after a token of a source, well-formed or not, changes places
only: the kinds and texts of its tokens stay, what a recovering parse makes of it, up to places and
the texts of initializers, or that a number in it is too long to read, and what is reported, in the
same order. -/
theorem ofSource_spaced {source : List Char} {t : Token} {bs : List Char}
    (ht : t ∈ tokensOf (pieces source)) (hbs : ∀ b ∈ bs, Lexeme.isBlank b = true) :
    (tokenListing (spaced source t bs)).map (fun l => (l.kind, l.text)) =
        (tokenListing source).map (fun l => (l.kind, l.text)) ∧
      (Parsed.ofSource (spaced source t bs)).map Parsed.said =
        (Parsed.ofSource source).map Parsed.said ∧
      (Parsing.recover (pieces (spaced source t bs))).diagnostics.map Diagnostic.said =
        (Parsing.recover (pieces source)).diagnostics.map Diagnostic.said := by
  have hsolid := solid_pieces_spaced ht hbs
  have hbare : (Parsing.recover (pieces (spaced source t bs))).bare =
      (Parsing.recover (pieces source)).bare := by
    rw [Parsing.recover, Parsing.recover, ← Parsing.recoverFrom_solid,
      ← Parsing.recoverFrom_solid _ _ (pieces source)]
    exact Parsing.recoverFrom_of_bare_eq rfl hsolid
  have hsaid := said_diagnostics (congrArg Recovered.repairs hbare)
  refine ⟨?_, ?_, hsaid⟩
  · rw [kinds_and_texts_listed, kinds_and_texts_listed, hsolid]
  · have hparsed (source : List Char) : Parsed.ofSource source =
        (fun p => ⟨p, (Parsing.recover (pieces source)).diagnostics⟩) <$>
          (Parsing.recover (pieces source)).program source := Parsed.ofPieces_of_recover rfl
    rw [hparsed, hparsed]
    exact (agree_program (congrArg Recovered.tree hbare)).map fun p q hsame => Prod.ext hsame hsaid

/-- A source in which nothing fits: an unclosed group, a stray character and an unclosed string. -/
def raggedSource : List Char :=
  "int x = (1 @ \"a;".toList

def raggedNumber : Token :=
  ⟨.intLit, "1", ⟨1, 10, 9⟩, ⟨1, 11, 10⟩⟩

theorem ofSource_ragged_spaced : raggedNumber ∈ tokensOf (pieces raggedSource) ∧
    (∀ b ∈ ['\n', ' '], Lexeme.isBlank b = true) ∧
    (tokenListing (spaced raggedSource raggedNumber ['\n', ' '])).map (fun l => (l.kind, l.text)) =
      (tokenListing raggedSource).map (fun l => (l.kind, l.text)) ∧
    (Parsed.ofSource (spaced raggedSource raggedNumber ['\n', ' '])).map Parsed.said =
      (Parsed.ofSource raggedSource).map Parsed.said ∧
    (Parsing.recover (pieces (spaced raggedSource raggedNumber ['\n', ' ']))).diagnostics.map
        Diagnostic.said =
      (Parsing.recover (pieces raggedSource)).diagnostics.map Diagnostic.said := by
  have ht : raggedNumber ∈ tokensOf (pieces raggedSource) := by decide +kernel
  have hbs : ∀ b ∈ ['\n', ' '], Lexeme.isBlank b = true := by simp [Lexeme.isBlank]
  exact ⟨ht, hbs, ofSource_spaced ht hbs⟩

end Sema
