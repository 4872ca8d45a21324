import Sema.Proofs.Parsing.Dropping
import Sema.Proofs.Parsing.Unwinding
import Sema.Proofs.Syntax.Parentheses

/-!
# Stray semicolons

A semicolon is put in right after the last token of a statement or of a declaration at the top level
of a program (`Tree.Ends`). A recovering parse then gives the same program and reports one syntax
error, unless that token is the closing brace of a block in a `for` loop or in a function with a
result type (`Tree.InResumable`): then the parse goes back to the header and the body is lost
(`ofSource_withSemicolon_iff`).
-/

namespace Sema

open Automaton

/-! ## Ends of statements and declarations -/

/-- The token between `u` and `v` is the last one of a statement, or of a declaration at the top
level. -/
def Tree.Ends (root : Tree) (u : List Token) (t : Token) (v : List Token) : Prop :=
  ∃ path u' s w, root.Occurs path u' s v ∧
    (s.symbol = .phrase .stmt ∨ s.symbol = .phrase .decl) ∧ s.leaves = w ++ [t] ∧ u = u' ++ w

/-- The token between `u` and `v` is the closing brace of a block in a `for` loop or in a function
with a result type. -/
def Tree.InResumable (root : Tree) (u : List Token) (t : Token) (v : List Token) : Prop :=
  t.kind = .rbrace ∧ ∃ path r, root.Occurs path u (.leaf t) v ∧ r ∈ path ∧ r ∈ Rule.resumable

/-- The categories of the phrases that end with the end of a statement or of a block. -/
def Category.ended : List Category :=
  [.stmt, .decl, .varDecl, .exprStmt, .ifStmt, .whileStmt, .forStmt, .returnStmt, .block, .funcDef]

theorem body_of_blocks {r : Rule} (hr : r ∈ Rule.blocks) :
    ∃ xs, r.body = xs ++ [.terminal .rbrace] := by
  simp only [Rule.blocks, List.mem_cons, List.not_mem_nil, or_false] at hr
  rcases hr with rfl | rfl
  · exact ⟨[.terminal .lbrace, .phrase .stmts], rfl⟩
  · exact ⟨[.terminal .lbrace], rfl⟩

theorem exists_last_of_ended {r : Rule} (hr : r.category ∈ Category.ended) :
    r ∈ Rule.terminated ∨ r ∈ Rule.blocks ∨
      ∃ xs c, r.body = xs ++ [.phrase c] ∧ c ∈ Category.ended := by
  have hall := Rule.of_all_rules (p := fun r => !Category.ended.contains r.category ||
    (Rule.terminated.contains r || (Rule.blocks.contains r ||
      r.body.getLast?.any (GrammarSymbol.test (fun _ => false) Category.ended.contains))))
    (by decide +kernel) r
  rw [List.contains_iff_mem.mpr hr, Bool.not_true, Bool.false_or, Bool.or_eq_true,
    Bool.or_eq_true, List.contains_iff_mem, List.contains_iff_mem] at hall
  rcases hall with hterminated | hblock | hlast
  · exact .inl hterminated
  · exact .inr (.inl hblock)
  · rw [Option.any_eq_true] at hlast
    obtain ⟨x, hx, hended⟩ := hlast
    obtain ⟨xs, hxs⟩ := List.getLast?_eq_some_iff.mp hx
    cases x with
    | terminal kind => cases hended
    | phrase c => exact .inr (.inr ⟨xs, c, hxs, List.contains_iff_mem.mp hended⟩)

theorem exists_parts_before_last {r : Rule} {ts : List Tree} {xs : List GrammarSymbol}
    {kind : Terminal} {w : List Token} {t : Token} (h : (Tree.node r ts).WellFormed)
    (hbody : r.body = xs ++ [.terminal kind]) (hw : (Tree.node r ts).leaves = w ++ [t]) :
    ∃ us, ts = us ++ [.leaf t] ∧ w = Tree.leavesAll us := by
  obtain ⟨us, token, rfl, -, -⟩ := leaves_of_last h hbody
  rw [Tree.leaves, Tree.leavesAll_append] at hw
  obtain ⟨hus, htoken⟩ := List.append_inj' hw rfl
  obtain rfl : token = t := List.head_eq_of_cons_eq htoken
  exact ⟨us, rfl, hus.symm⟩

theorem exists_node_at_end (s : Tree) (hs : s.WellFormed) {c : Category}
    (hc : c ∈ Category.ended) (hsymbol : s.symbol = .phrase c) {w : List Token} {t : Token}
    (hw : s.leaves = w ++ [t]) :
    ∃ path u r ts, (r ∈ Rule.terminated ∨ r ∈ Rule.blocks) ∧
      s.Occurs path u (.node r (ts ++ [.leaf t])) [] ∧ w = u ++ Tree.leavesAll ts := by
  induction s using Tree.ind generalizing c w with
  | leaf token => cases hsymbol
  | node r ts ih =>
    obtain rfl : r.category = c := GrammarSymbol.phrase.inj hsymbol
    rcases exists_last_of_ended hc with hr | hr | ⟨xs, c', hbody, hc'⟩
    · obtain ⟨xs, hbody⟩ := body_of_terminated hr
      obtain ⟨us, rfl, rfl⟩ := exists_parts_before_last hs hbody hw
      exact ⟨[], [], r, us, .inl hr, .root, rfl⟩
    · obtain ⟨xs, hbody⟩ := body_of_blocks hr
      obtain ⟨us, rfl, rfl⟩ := exists_parts_before_last hs hbody hw
      exact ⟨[], [], r, us, .inr hr, .root, rfl⟩
    · obtain ⟨us, last, rfl, hlast⟩ := exists_append_of_map_eq (hs.1.trans hbody)
      have hwf := (Tree.allWellFormed_append_cons hs.2).2.1
      have hne : last.leaves ≠ [] := by
        have hall : ∀ c ∈ Category.ended, c.isEmptiable = false := by decide
        exact Tree.leaves_ne_nil hwf hlast (hall c' hc')
      rw [Tree.leaves, Tree.leavesAll_append, Tree.leavesAll, Tree.leavesAll, List.append_nil] at hw
      obtain ⟨w', hw', rfl⟩ := exists_append_last hw hne
      obtain ⟨path, u, r', ts', hr', hoccurs, rfl⟩ := ih last (by simp) hwf hc' hlast hw'
      have hpart : (Tree.node r (us ++ [last])).Occurs _ _ last _ := .part .root
      exact ⟨_, _, r', ts', hr', hpart.trans hoccurs, by simp⟩

/-- What ends a statement or a declaration is the terminator of a phrase or the closing brace of a
block. -/
theorem Tree.Ends.cases {root : Tree} {u v : List Token} {t : Token} (h : root.Ends u t v)
    (hroot : root.WellFormed) :
    t.kind = .semicolon ∧ root.Terminates u t v ∨
      t.kind = .rbrace ∧ ∃ path, root.Occurs path u (.leaf t) v := by
  obtain ⟨path, u', s, w, hoccurs, hsymbol, hw, rfl⟩ := h
  have hs := hoccurs.wellFormed hroot
  obtain ⟨c, hc, hsymbol⟩ : ∃ c ∈ Category.ended, s.symbol = .phrase c := by
    rcases hsymbol with hsymbol | hsymbol
    · exact ⟨_, by decide, hsymbol⟩
    · exact ⟨_, by decide, hsymbol⟩
  obtain ⟨path', x, r, ts, hr, hnode, rfl⟩ := exists_node_at_end s hs hc hsymbol hw
  have hwhole := hoccurs.trans hnode
  have hkind {xs : List GrammarSymbol} {kind : Terminal} (hbody : r.body = xs ++ [.terminal kind]) :
      t.kind = kind := by
    obtain ⟨us, token, heq, -, hkind⟩ := leaves_of_last (hwhole.wellFormed hroot) hbody
    obtain ⟨-, htoken⟩ := List.append_inj' heq rfl
    rw [Tree.leaf.inj (List.head_eq_of_cons_eq htoken), hkind]
  rcases hr with hr | hr
  · obtain ⟨xs, hbody⟩ := body_of_terminated hr
    exact .inl ⟨hkind hbody, _, _, r, ts, hr, hwhole, by rw [List.append_assoc]⟩
  · obtain ⟨xs, hbody⟩ := body_of_blocks hr
    refine .inr ⟨hkind hbody, r :: (path' ++ path), ?_⟩
    simpa [Tree.leavesAll] using Tree.Occurs.part hwhole

theorem Tree.Ends.isBoundary {root : Tree} {u v : List Token} {t : Token} (h : root.Ends u t v)
    (hroot : root.WellFormed) : t.kind.isBoundary = true := by
  rcases h.cases hroot with ⟨hkind, -⟩ | ⟨hkind, -⟩
  · rw [hkind]
    rfl
  · rw [hkind]
    rfl

/-! ## Texts around the semicolon -/

theorem sliceOf_of_ne_nil (source : List Char) {w : List Token} (h : w ≠ []) :
    sliceOf source w = String.ofList ((source.drop (w.head h).start.offset).take
      ((w.getLast h).stop.offset - (w.head h).start.offset)) := by
  simp only [sliceOf, List.head?_eq_some_head h, List.getLast?_eq_some_getLast h]

theorem sliceOf_before {source source' : List Char} {n : Nat} {x : List Token}
    (hsame : source'.take n = source.take n) (hx : ∀ s ∈ x, s.stop.offset ≤ n) :
    sliceOf source' x = sliceOf source x := by
  by_cases hne : x = []
  · rw [hne]
    rfl
  have hle := hx _ (List.getLast_mem hne)
  have htake : source'.take (x.getLast hne).stop.offset =
      source.take (x.getLast hne).stop.offset := by
    have hboth := congrArg (List.take (x.getLast hne).stop.offset) hsame
    rwa [List.take_take, List.take_take, Nat.min_eq_left hle] at hboth
  rw [sliceOf_of_ne_nil source' hne, sliceOf_of_ne_nil source hne, ← List.drop_take,
    ← List.drop_take, htake]

/-- Between tokens that stand later by `k` characters there is the same text if the text there is
the same. -/
theorem sliceOf_later {source source' : List Char} {k : Nat} {x x' : List Token}
    (hx : x'.map Token.extent = x.map fun s => (s.start.offset + k, s.stop.offset + k))
    (hsame : ∀ s ∈ x, source'.drop (s.start.offset + k) = source.drop s.start.offset) :
    sliceOf source' x' = sliceOf source x := by
  by_cases hne : x = []
  · subst hne
    rw [List.map_eq_nil_iff.mp hx]
    rfl
  have hne' : x' ≠ [] := by
    rintro rfl
    exact hne (List.map_eq_nil_iff.mp hx.symm)
  have hfirst := congrArg List.head? hx
  have hlast := congrArg List.getLast? hx
  simp only [List.head?_map, List.getLast?_map, List.head?_eq_some_head hne,
    List.head?_eq_some_head hne', List.getLast?_eq_some_getLast hne,
    List.getLast?_eq_some_getLast hne', Option.map_some, Option.some.injEq, Token.extent,
    Prod.mk.injEq] at hfirst hlast
  rw [sliceOf_of_ne_nil source' hne', sliceOf_of_ne_nil source hne, hfirst.1, hlast.2,
    hsame _ (List.head_mem hne), Nat.add_sub_add_right]

theorem before_or_behind {u x v w w' : List Token} {t : Token}
    (h : w ++ t :: w' = u ++ (x ++ v)) (hx : t ∉ x) :
    (∃ z, w = u ++ (x ++ z)) ∨ ∃ y, u = w ++ t :: y ∧ w' = y ++ (x ++ v) := by
  rcases List.append_eq_append_iff.mp h with ⟨y, rfl, hy⟩ | ⟨y, rfl, hy⟩
  · cases y with
    | nil =>
      cases x with
      | nil => exact .inl ⟨[], by simp⟩
      | cons s x =>
        obtain ⟨rfl, -⟩ := List.cons.inj hy
        exact absurd List.mem_cons_self hx
    | cons s y =>
      obtain ⟨rfl, hrest⟩ := List.cons.inj hy
      exact .inr ⟨y, rfl, hrest⟩
  · rcases List.append_eq_append_iff.mp hy with ⟨z, rfl, -⟩ | ⟨z, rfl, hz⟩
    · exact .inl ⟨z, by simp⟩
    · cases z with
      | nil => exact .inl ⟨[], by simp⟩
      | cons s z =>
        obtain ⟨rfl, -⟩ := List.cons.inj hz
        exact absurd (by simp) hx

/-- Around a semicolon that is put in after the end of a statement or of a block there are the same
texts, except across that end. -/
theorem sameSlices_withSemicolon {source : List Char} {before after : List Piece} {t t' : Token}
    {w : List Token} (h : pieces source = before ++ .token t :: after)
    (ht : t.kind.isBoundary = true)
    (hw : w.map Token.extent =
      (tokensOf after).map fun s => (s.start.offset + 1, s.stop.offset + 1)) :
    SameSlices source (withSemicolon source t) (tokensOf before ++ t :: tokensOf after)
      (tokensOf before ++ t' :: w) := by
  obtain ⟨rest, hsource, -, hstop, -⟩ := exists_text_around h
  rw [← List.append_assoc] at hsource
  have hlength := offset_stop h
  have hedited : withSemicolon source t =
      before.flatMap Piece.text ++ t.text.toList ++ ';' :: rest := by
    rw [withSemicolon, hlength, hsource, List.take_left, List.drop_left]
  intro u x v u' x' v' hsplit hsplit' hu hx hinner
  have hx' : x' = ((tokensOf before ++ t' :: w).drop u.length).take x.length := by
    rw [hsplit', ← hu, List.drop_left, ← hx, List.take_left]
  have hnot : t ∉ x := by
    intro hmem
    rw [hinner t hmem] at ht
    cases ht
  rcases before_or_behind hsplit hnot with ⟨z, hz⟩ | ⟨y, rfl, hy⟩
  · rw [hz, List.append_assoc, List.drop_left, List.append_assoc, List.take_left] at hx'
    subst hx'
    apply @sliceOf_before source (withSemicolon source t) t.stop.offset
    · rw [hedited, hsource, hlength, List.take_left, List.take_left]
    · intro s hs
      have hmem : s ∈ tokensOf before := by simp [hz, hs]
      obtain ⟨qs, rs, rfl⟩ := exists_append_of_mem_tokensOf hmem
      have hle : s.stop.offset ≤ t.start.offset := stop_le_start (by simpa using h)
      rw [hstop, Position.offset_advance]
      omega
  · rw [List.length_append, List.drop_length_add_append, List.length_cons,
      List.drop_succ_cons] at hx'
    apply @sliceOf_later source (withSemicolon source t) 1
    · rw [hx', List.map_take, List.map_drop, hw, hy, ← List.map_drop, List.drop_left,
        ← List.map_take, List.take_left]
    · intro s hs
      have hmem : s ∈ tokensOf after := by simp [hy, hs]
      obtain ⟨qs, rs, rfl⟩ := exists_append_of_mem_tokensOf hmem
      have hle : t.stop.offset ≤ s.start.offset := stop_le_start h
      obtain ⟨n, hn⟩ := Nat.exists_eq_add_of_le hle
      rw [hn, hedited, hsource, hlength, Nat.add_assoc, List.drop_length_add_append,
        List.drop_length_add_append, List.drop_succ_cons]

/-! ## Stacks at these places -/

namespace Parsing

open Automaton.Stack (Spine)

variable {root : Tree} {u v : List Token} {t : Token}

theorem feedAll_terminated (hroot : root.WellFormed) (hprogram : root.symbol = .phrase .program)
    (h : root.Terminates u t v) (hkind : t.kind = .semicolon) :
    ∃ σ e r, Stack.feedAll [] (u ++ [t]) = some (⟨e, .leaf t⟩ :: σ) ∧ Stack.Path σ ∧
      next? (Stack.state σ) (.terminal .semicolon) = some e ∧ (row e).complete = some r ∧
      r ∈ Rule.terminated := by
  obtain ⟨path, u', r, ts, hr, hoccurs, rfl⟩ := h
  obtain ⟨σ, σ₁, e, hfeed, hreduces, hnext, hcomplete⟩ :=
    reads_terminator hroot hprogram hr hoccurs
  have hσ := (Stack.path_feedAll .nil hfeed).1
  have ht : Stack.feed t σ = .ok (⟨e, .leaf t⟩ :: σ₁) :=
    (Stack.feed_eq_ok_iff hσ).mpr ⟨σ₁, e, hkind ▸ hreduces, hkind ▸ hnext, rfl⟩
  refine ⟨σ₁, e, r, Stack.feedAll_append_eq_some.mpr ⟨σ, hfeed, ?_⟩, (hreduces.path hσ).1, hnext,
    hcomplete, hr⟩
  rw [Stack.feedAll_cons_of_feed ht, Stack.feedAll_nil]

theorem feedAll_block (hroot : root.WellFormed) (hprogram : root.symbol = .phrase .program)
    {path : List Rule} (h : root.Occurs path u (.leaf t) v) (hkind : t.kind = .rbrace) :
    ∃ σ e r, Stack.feedAll [] (u ++ [t]) = some (⟨e, .leaf t⟩ :: σ) ∧ Stack.Path σ ∧
      Spine path (.terminal .rbrace) σ ∧ (row e).complete = some r ∧ r ∈ Rule.blocks := by
  obtain ⟨σ₁, e, hspine, hreads, hnext, -⟩ := Stack.reads_occurs hroot hprogram h
  obtain ⟨σ, hfeed, hreduces⟩ := (Stack.reads_iff .nil).mp hreads
  have hσ := (Stack.path_feedAll .nil hfeed).1
  have ht : Stack.feed t σ = .ok (⟨e, .leaf t⟩ :: σ₁) :=
    (Stack.feed_eq_ok_iff hσ).mpr ⟨σ₁, e, hreduces, hnext, rfl⟩
  rw [Tree.symbol_leaf, hkind] at hspine hnext
  obtain ⟨r, hr, hcomplete⟩ := complete_of_rbrace hnext
  refine ⟨σ₁, e, r, Stack.feedAll_append_eq_some.mpr ⟨σ, hfeed, ?_⟩, (hreduces.path hσ).1, hspine,
    hcomplete, hr⟩
  rw [Stack.feedAll_cons_of_feed ht, Stack.feedAll_nil]

/-- The stack after the end of a statement or of a declaration, which a semicolon changes at most in
its last token, and the report on the semicolon. -/
theorem exists_take_of_ends (hroot : root.WellFormed) (hprogram : root.symbol = .phrase .program)
    (h : root.Ends u t v) (hnot : ¬ root.InResumable u t v) {semi : Token}
    (hsemi : semi.kind = .semicolon) (ht : t.kind = .semicolon → t.bare = semi.bare) :
    ∃ stack next done d t', Stack.feedAll [] (u ++ [t]) = some stack ∧
      take semi stack = ([done], next) ∧ next.bare = stack.bare ∧ Stack.Path next ∧
      Stack.leaves next = u ++ [t'] ∧ done.diagnostics = [d] ∧ d.code = .syntaxError := by
  rcases h.cases hroot with ⟨hkind, hterminates⟩ | ⟨hrbrace, path, hoccurs⟩
  · obtain ⟨σ, e, r, hfeed, hσ, hnext, hcomplete, hr⟩ :=
      feedAll_terminated hroot hprogram hterminates hkind
    have hleaves := (Stack.path_feedAll .nil hfeed).2
    rw [Stack.leaves_cons, Stack.leaves_nil, List.nil_append] at hleaves
    have hbefore : Stack.leaves σ = u := (List.append_inj' hleaves rfl).1
    have htaken := @take_semicolon_terminated σ e r t semi hcomplete hr hsemi hσ hnext
    refine ⟨_, _, _, _, semi, hfeed, htaken, ?_, .cons hσ trivial ?_, ?_, rfl, rfl⟩
    · simp [Frame.bare, Tree.bare, ht hkind]
    · rw [Tree.symbol_leaf, hsemi]
      exact hnext
    · rw [Stack.leaves_cons, hbefore]
      rfl
  · obtain ⟨σ, e, r, hfeed, hσ, hspine, hcomplete, hr⟩ :=
      feedAll_block hroot hprogram hoccurs hrbrace
    obtain ⟨hpath, hleaves⟩ := Stack.path_feedAll .nil hfeed
    have hdropped := @take_semicolon_dropped σ e r t semi path hcomplete hr hsemi hσ hspine
      fun r' hr' hmem => hnot ⟨hrbrace, path, r', hoccurs, hr', hmem⟩
    exact ⟨_, _, _, _, t, hfeed, hdropped, rfl, hpath, hleaves, rfl, rfl⟩

/-! ## The recovering parse -/

theorem leaves_of_recoverFrom {last : Span} {σ : Stack} {ps : List Piece} {tree : Tree}
    (hσ : Stack.Path σ) (h : recoverFrom last σ ps = ⟨[], some tree⟩) :
    tree.leaves = Stack.leaves σ ++ tokensOf ps := by
  obtain ⟨-, τ, hfeed, hfinish⟩ := strictFrom_eq_ok_iff.mp (strictFrom_of_recoverFrom hσ h)
  obtain ⟨hτ, hleaves⟩ := Stack.path_feedAll hσ hfeed
  rw [(Stack.path_of_finish_ok hτ hfinish).2.2, hleaves]

theorem recoverFrom_of_strict {ps qs : List Piece} {t : Token} {tree : Tree} {stack : Stack}
    (h : strict (ps ++ .token t :: qs) = .ok tree)
    (hstack : Stack.feedAll [] (tokensOf ps ++ [t]) = some stack) :
    recoverFrom t.span stack qs = ⟨[], some tree⟩ := by
  obtain ⟨hstray, τ, hfeed, hfinish⟩ := (@strictFrom_eq_ok_iff ⟨.start, .start⟩ [] _ tree).mp h
  rw [tokensOf_append, tokensOf_token, List.append_cons, Stack.feedAll_append_eq_some] at hfeed
  obtain ⟨mid, hmid, hrest⟩ := hfeed
  rw [hstack] at hmid
  cases hmid
  obtain ⟨-, hqs⟩ := noStray_append.mp hstray
  exact recoverFrom_of_strictFrom_ok
    (strictFrom_eq_ok_iff.mpr ⟨(noStray_token t qs).mp hqs, τ, hrest, hfinish⟩)

theorem exists_of_report_eq_nil {last : Span} {σ : Stack} {ps : List Piece} (hσ : Stack.Path σ)
    (h : Repair.report (recoverFrom last σ ps).repairs = []) :
    ∃ tree, recoverFrom last σ ps = ⟨[], some tree⟩ := by
  cases hstrict : strictFrom last.start σ ps with
  | ok tree => exact ⟨tree, recoverFrom_of_strictFrom_ok hstrict⟩
  | error e =>
    obtain ⟨d, ds, hdiagnostics, -⟩ := (recoverFrom_of_strictFrom_error hσ hstrict).diagnostics
    rw [Recovered.diagnostics, h] at hdiagnostics
    cases hdiagnostics

theorem countParens_bare (w : List Token) : countParens (w.map Token.bare) = countParens w :=
  List.countP_map

variable {source : List Char} {before after : List Piece} {tree : Tree}

/-- A semicolon after the end of a statement or of a declaration is reported, and the tree stays, up
to places, unless the semicolon follows a block in a resumable construct. -/
theorem recover_withSemicolon (hps : pieces source = before ++ .token t :: after)
    (hstrict : strict (pieces source) = .ok tree)
    (hends : tree.Ends (tokensOf before) t (tokensOf after))
    (hnot : ¬ tree.InResumable (tokensOf before) t (tokensOf after)) :
    ∃ done d tree' t' v', recover (pieces (withSemicolon source t)) = ⟨[done], some tree'⟩ ∧
      done.diagnostics = [d] ∧ d.code = .syntaxError ∧ tree'.bare = tree.bare ∧
      tree'.leaves = tokensOf before ++ t' :: v' ∧
      v'.map Token.extent =
        (tokensOf after).map fun s => (s.start.offset + 1, s.stop.offset + 1) := by
  obtain ⟨hstray, htree⟩ := strict_eq_ok_iff.mp hstrict
  have hbefore : NoStray before := by
    rw [hps] at hstray
    exact (noStray_append.mp hstray).1
  obtain ⟨before', after', hps', hbefore', htokens, hbare, hextents⟩ :=
    exists_pieces_withSemicolon hps hbefore (hends.isBoundary htree.wellFormed)
  have hsemicolon : t.kind = .semicolon → t.bare = (semicolonAfter t).bare := fun hkind => by
    rw [Token.bare, hkind, text_of_semicolon hps hkind]
    rfl
  obtain ⟨stack, next, done, d, t', hstack, htake, hsame, hpath, hleaves, hdone, hcode⟩ :=
    exists_take_of_ends htree.wellFormed htree.symbol hends hnot rfl hsemicolon
  have hclean := recoverFrom_of_strict (hps ▸ hstrict) hstack
  rw [← recoverFrom_solid] at hclean
  obtain ⟨tree', hrecover, hbare'⟩ := @exists_recoverFrom_of_bare_eq t.span
    (semicolonAfter t).span stack next (solid after) (solid after') tree hsame hbare hclean
  rw [recoverFrom_solid] at hrecover
  refine ⟨done, d, tree', t', tokensOf after', ?_, hdone, hcode, hbare', ?_, hextents⟩
  · rw [recover, hps', recoverFrom_append hbefore' (htokens ▸ hstack), recoverFrom_token, htake,
      hrecover]
    rfl
  · rw [leaves_of_recoverFrom hpath hrecover, hleaves, List.append_assoc]
    rfl

/-- A semicolon after a block in a resumable construct makes a parse that reports nothing else lose
a closing parenthesis. -/
theorem countParens_withSemicolon (hps : pieces source = before ++ .token t :: after)
    (hstrict : strict (pieces source) = .ok tree)
    (hlost : tree.InResumable (tokensOf before) t (tokensOf after)) {d : Diagnostic}
    (hreport : (recover (pieces (withSemicolon source t))).diagnostics = [d]) {tree' : Tree}
    (htree' : (recover (pieces (withSemicolon source t))).tree = some tree') :
    countParens tree'.leaves < countParens tree.leaves := by
  obtain ⟨hstray, htree⟩ := strict_eq_ok_iff.mp hstrict
  have hbefore : NoStray before := by
    rw [hps] at hstray
    exact (noStray_append.mp hstray).1
  obtain ⟨hkind, path, r, hoccurs, hr, hresumable⟩ := hlost
  obtain ⟨before', after', hps', hbefore', htokens, hbare, -⟩ :=
    exists_pieces_withSemicolon hps hbefore (by rw [hkind]; rfl)
  obtain ⟨σ, e, r', hstack, hσ, hspine, hcomplete, hblock⟩ :=
    feedAll_block htree.wellFormed htree.symbol hoccurs hkind
  obtain ⟨n, fed, htake, hfed, hcount⟩ := @take_semicolon_unwound σ e r' t (semicolonAfter t) path
    hcomplete hblock rfl hσ hspine r hr hresumable
  have hrecover : recover (pieces (withSemicolon source t)) =
      ⟨.unwound n (semicolonAfter t) (expected e) ::
          (recoverFrom (semicolonAfter t).span fed after').repairs,
        (recoverFrom (semicolonAfter t).span fed after').tree⟩ := by
    rw [recover, hps', recoverFrom_append hbefore' (htokens ▸ hstack), recoverFrom_token, htake]
    rfl
  rw [hrecover] at hreport htree'
  rw [Recovered.diagnostics, Repair.report_cons_of_not_mem rfl
    (not_mem_diagnostics_after hps' _ fed (expected e))] at hreport
  obtain ⟨tree'', hclean'⟩ := exists_of_report_eq_nil hfed (List.cons.inj hreport).2
  rw [hclean'] at htree'
  cases htree'
  have hclean := recoverFrom_of_strict (hps ▸ hstrict) hstack
  have hpath := (Stack.path_feedAll .nil hstack).1
  have hkinds : countParens (tokensOf after') = countParens (tokensOf after) := by
    have hsame := congrArg (fun ps => countParens (tokensOf ps)) hbare
    simpa only [tokensOf_map_bare, countParens_bare, tokensOf_solid] using hsame
  rw [leaves_of_recoverFrom hfed hclean', leaves_of_recoverFrom hpath hclean, countParens_append,
    countParens_append, hkinds]
  omega

end Parsing

/-! ## The program -/

/-- A semicolon put in right after the last token of a statement, or of a declaration at the top
level, leaves the program as it is, up to places, and makes a recovering parse report one syntax
error, exactly where that token is not the closing brace of a block in a `for` loop or in a function
with a result type. -/
theorem ofSource_withSemicolon_iff {source : List Char} {before after : List Piece} {t : Token}
    {p : Program} {tree : Tree} (hp : Program.ofSource source = .ok p)
    (hps : pieces source = before ++ .token t :: after)
    (htree : tree.Derives (.phrase .program) (tokensOf (pieces source)))
    (hends : tree.Ends (tokensOf before) t (tokensOf after)) :
    (∃ q d, Parsed.ofSource (withSemicolon source t) = .ok ⟨some q, [d]⟩ ∧
        d.code = .syntaxError ∧ q.Same p) ↔
      ¬ tree.InResumable (tokensOf before) t (tokensOf after) := by
  obtain ⟨root, hstrict, hread⟩ := ofPieces_eq_ok.mp hp
  obtain rfl : tree = root :=
    Parsing.eq_of_derives_program htree (Parsing.strict_eq_ok_iff.mp hstrict).2
  have hspells := spells_of_reading htree hread
  constructor
  · rintro ⟨q, d, hq, -, hsame, -⟩ hlost
    obtain ⟨hprogram, hreport⟩ := parsed_eq_ok.mp hq
    obtain ⟨tree', htree', hread'⟩ := program_eq_some hprogram
    have hderives := (Parsing.derives_recover htree').1
    have hcount := (spells_of_reading hderives hread').count_parens hderives.wellFormed
    have hless := Parsing.countParens_withSemicolon hps hstrict hlost hreport htree'
    rw [hcount, hspells.count_parens htree.wellFormed, hsame] at hless
    exact absurd hless (Nat.lt_irrefl _)
  · intro hnot
    obtain ⟨done, d, tree', t', v', hrecover, hdone, hcode, hbare, hleaves, hextents⟩ :=
      Parsing.recover_withSemicolon hps hstrict hends hnot
    have hderives := (Parsing.derives_recover (congrArg Recovered.tree hrecover)).1
    have hreport : Repair.report [done] = [d] :=
      Repair.report_cons_of_not_mem hdone List.not_mem_nil
    rcases @sameOutcome_of_bare_eq (withSemicolon source t) source _ _ _ _ _ _ hrecover hderives
      hstrict hbare with ⟨q, p', hq, hp', hsame⟩ | ⟨e, -, he⟩
    · rw [show Program.ofPieces source (pieces source) = .ok p from hp] at hp'
      cases hp'
      rw [hreport] at hq
      refine ⟨q, d, hq, hcode, hsame, ?_⟩
      obtain ⟨hprogram, -⟩ := parsed_eq_ok.mp hq
      obtain ⟨root', htree', hread'⟩ := program_eq_some hprogram
      rw [hrecover] at htree'
      cases htree'
      have hslices := @sameSlices_withSemicolon source before after t t' v' hps
        (hends.isBoundary htree.wellFormed) hextents
      rw [(spells_of_reading hderives hread').initTexts, hspells.initTexts]
      refine @SameSlices.initTexts _ _ _ _ hslices tree tree' htree.wellFormed hbare [] [] [] [] ?_
        (by simp [hleaves]) rfl
      have hwhole := htree.leaves
      rw [hps, tokensOf_append, tokensOf_token] at hwhole
      simp [hwhole]
    · rw [show Program.ofPieces source (pieces source) = .ok p from hp] at he
      cases he

/-- A token of the first line that starts after `n` characters. -/
def tokenAt (n : Nat) (kind : Terminal) (text : String) : Token :=
  ⟨kind, text, ⟨1, n + 1, n⟩, ⟨1, n + 1 + text.length, n + text.length⟩⟩

def onlyDecl (decl : Tree) : Tree :=
  .node .programDecls [.node .declsFirst [decl]]

theorem ends_onlyDecl {decl : Tree} {w : List Token} {t : Token}
    (hdecl : decl.symbol = .phrase .decl) (hw : decl.leaves = w ++ [t]) :
    (onlyDecl decl).Ends w t [] := by
  have hdecls : (onlyDecl decl).Occurs [] [] (.node .programDecls ([] ++ _ :: [])) [] := .root
  have hfirst : (onlyDecl decl).Occurs _ _ (.node .declsFirst ([] ++ decl :: [])) _ := hdecls.part
  exact ⟨_, _, decl, w, hfirst.part, .inr hdecl, hw, rfl⟩

def oneVariable : List Char :=
  "int x;".toList

def oneVariableTree : Tree :=
  .node .declVar [.node .varDecl [.node (.varSpec false false)
    [.node (.typeName .int) [.leaf (tokenAt 0 .int "int")], .leaf (tokenAt 4 .name "x")],
    .leaf (tokenAt 5 .semicolon ";")]]

theorem semicolon_after_variable : ∃ p q d, Program.ofSource oneVariable = .ok p ∧
    Parsed.ofSource (withSemicolon oneVariable (tokenAt 5 .semicolon ";")) = .ok ⟨some q, [d]⟩ ∧
    d.code = .syntaxError ∧ q.Same p := by
  have hok : (Program.ofSource oneVariable).isOk = true := by decide +kernel
  have hpieces : pieces oneVariable = [.token (tokenAt 0 .int "int"), .ignored [' '],
      .token (tokenAt 4 .name "x")] ++ .token (tokenAt 5 .semicolon ";") :: [] := by decide +kernel
  have htree : (onlyDecl oneVariableTree).Derives (.phrase .program)
      (tokensOf (pieces oneVariable)) := by
    rw [hpieces]
    refine ⟨?_, rfl, rfl⟩
    simp [onlyDecl, oneVariableTree, Tree.WellFormed, Tree.AllWellFormed, Rule.body,
      Rule.category, BasicType.terminal, tokenAt]
  have hends := @ends_onlyDecl oneVariableTree
    [tokenAt 0 .int "int", tokenAt 4 .name "x"] (tokenAt 5 .semicolon ";") rfl rfl
  cases hp : Program.ofSource oneVariable with
  | error e =>
    rw [hp] at hok
    cases hok
  | ok p =>
    have hkept := (ofSource_withSemicolon_iff hp hpieces htree hends).mpr fun hlost => by
      cases hlost.1
    obtain ⟨q, d, hq, hcode, hsame⟩ := hkept
    exact ⟨p, q, d, rfl, hq, hcode, hsame⟩

def typedFunction : List Char :=
  "int f() \x7b \x7d".toList

/-- The tokens of the function before its closing brace. -/
def typedFunctionTokens : List Token :=
  [tokenAt 0 .int "int", tokenAt 4 .name "f", tokenAt 5 .lpar "(", tokenAt 6 .rpar ")",
    tokenAt 8 .lbrace "\x7b"]

def typedFunctionTree : Tree :=
  .node .declFunc [.node (.funcDef .typed false)
    [.node (.typeName .int) [.leaf (tokenAt 0 .int "int")], .leaf (tokenAt 4 .name "f"),
      .leaf (tokenAt 5 .lpar "("), .leaf (tokenAt 6 .rpar ")"),
      .node .blockEmpty [.leaf (tokenAt 8 .lbrace "\x7b"), .leaf (tokenAt 10 .rbrace "\x7d")]]]

/-- A semicolon after a function with a result type makes a variable of it. -/
theorem semicolon_after_function : ∃ (p : Program) (tree : Tree),
    Program.ofSource typedFunction = .ok p ∧
    tree.Derives (.phrase .program) (tokensOf (pieces typedFunction)) ∧
    tree.Ends typedFunctionTokens (tokenAt 10 .rbrace "\x7d") [] ∧
    ¬ ∃ q d, Parsed.ofSource (withSemicolon typedFunction (tokenAt 10 .rbrace "\x7d")) =
        .ok ⟨some q, [d]⟩ ∧ d.code = .syntaxError ∧ q.Same p := by
  have htokens : tokensOf (pieces typedFunction) =
      typedFunctionTokens ++ [tokenAt 10 .rbrace "\x7d"] := by decide +kernel
  have htree : (onlyDecl typedFunctionTree).Derives (.phrase .program)
      (tokensOf (pieces typedFunction)) := by
    rw [htokens]
    refine ⟨?_, rfl, rfl⟩
    simp [onlyDecl, typedFunctionTree, Tree.WellFormed, Tree.AllWellFormed, Rule.body,
      ResultForm.body, Rule.category, BasicType.terminal, tokenAt]
  have hends := @ends_onlyDecl typedFunctionTree typedFunctionTokens (tokenAt 10 .rbrace "\x7d")
    rfl rfl
  have hbefore : (Program.ofSource typedFunction).toOption.map (·.bare.parens) = some 1 := by
    decide +kernel
  have hafter : ((Parsed.ofSource (withSemicolon typedFunction
      (tokenAt 10 .rbrace "\x7d"))).toOption.bind (·.program)).map (·.bare.parens) = some 0 := by
    decide +kernel
  cases hp : Program.ofSource typedFunction with
  | error e =>
    rw [hp] at hbefore
    cases hbefore
  | ok p =>
    refine ⟨p, _, rfl, htree, hends, ?_⟩
    rintro ⟨q, d, hq, -, hsame, -⟩
    rw [hp] at hbefore
    rw [hq] at hafter
    have hparens : some q.bare.parens = some p.bare.parens := by rw [hsame]
    rw [show some q.bare.parens = some 0 from hafter,
      show some p.bare.parens = some 1 from hbefore] at hparens
    cases hparens

end Sema
