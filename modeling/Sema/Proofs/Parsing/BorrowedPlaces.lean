import Mathlib.Data.List.Nodup
import Sema.Proofs.Parsing.StraySemicolons

/-!
# Texts of initializers after recovery

A mark that recovery inserts has no place of its own and borrows that of a token of the source: of
the token before which it is inserted, or of the last token of all. Along a recovering parse the
tokens on the stack end one after the other, at the ends of tokens of the source (`Anchored`), so the
text of an initializer goes from its first token, which is never a mark, to the end of a token of the
source. It is the text of the tokens of the source in the initializer if that token is one of them,
and only then (`recovered_initText`): where an initializer ends with an inserted parenthesis, the text
goes on to the end of the token whose place that borrows.
-/

namespace Sema

/-! ## Variables and their initializers -/

/-- The variables that a declaration declares, in the order of the source. -/
def Decl.variables : Decl → List VarDecl
  | .func f => (f.items.filterMap Item.declared?).map Prod.snd
  | .var d => [d]
  | .unsupported => []

def Program.variables (p : Program) : List VarDecl :=
  p.declarations.flatMap Decl.variables

/-- A part of the tree `root` declares the variable `d`. -/
def Tree.Declares (source : List Char) (root : Tree) (d : VarDecl) : Prop :=
  ∃ path u spec v, root.Occurs path u spec v ∧ SpellsVar source spec d

/-- A part of the tree `root` declares the variable `d` with the initializer `value`. -/
def Tree.Initializes (source : List Char) (root value : Tree) (d : VarDecl) : Prop :=
  ∃ path u isConst ts v, root.Occurs path u (.node (.varSpec isConst true) (ts ++ [value])) v ∧
    SpellsVar source (.node (.varSpec isConst true) (ts ++ [value])) d

variable {source : List Char} {d : VarDecl}

theorem Tree.Declares.part {r : Rule} {ts : List Tree} {t : Tree} (h : t.Declares source d)
    (ht : t ∈ ts) : (Tree.node r ts).Declares source d := by
  obtain ⟨path, u, spec, v, hoccurs, hspec⟩ := h
  obtain ⟨us, vs, rfl⟩ := List.append_of_mem ht
  have hpart : (Tree.node r (us ++ t :: vs)).Occurs _ _ t _ := .part .root
  exact ⟨_, _, spec, _, hpart.trans hoccurs, hspec⟩

theorem Tree.Declares.exists_initializer {root : Tree} (h : root.Declares source d)
    (hvalue : d.value.isSome = true) : ∃ value, root.Initializes source value d := by
  obtain ⟨path, u, spec, v, hoccurs, hspec⟩ := h
  cases hspec with
  | plain | constant => cases hvalue
  | @plainInit t value type name equal e typed spells =>
    exact ⟨value, path, u, false, [t, .leaf name, .leaf equal], v, hoccurs, .plainInit typed spells⟩
  | @constantInit const t value type name equal e typed spells =>
    exact ⟨value, path, u, true, [.leaf const, t, .leaf name, .leaf equal], v, hoccurs,
      .constantInit typed spells⟩

theorem SpellsVar.declares {t : Tree} (h : SpellsVar source t d) : t.Declares source d :=
  ⟨[], [], t, [], .root, h⟩

theorem Performs.not_declared_mem {e : Expr} {s : Stmt} (h : Performs e s) (φ ψ : FramePath)
    (n : Nat) : Item.declared ψ d ∉ s.items φ n := by
  cases h with
  | assign => exact Item.not_declared_mem_ofExpr? _
  | expr => simp [Stmt.items]

theorem SpellsInit.declares {t : Tree} {init : Option Stmt} (h : SpellsInit source t init)
    {φ ψ : FramePath} {n : Nat} (hd : .declared ψ d ∈ Stmt.optionItems φ n init) :
    t.Declares source d := by
  cases h with
  | var spec =>
    simp only [Stmt.optionItems, Stmt.items, List.mem_append, Item.not_declared_mem_ofExpr?,
      List.mem_singleton, Item.declared.injEq, false_or] at hd
    exact hd.2 ▸ spec.declares.part List.mem_cons_self
  | expr _ performs => exact absurd hd (performs.not_declared_mem _ _ _)
  | empty => cases hd

theorem SpellsUpdate.not_declared_mem {t : Tree} {update : Option Stmt} (h : SpellsUpdate t update)
    (φ ψ : FramePath) (n : Nat) : Item.declared ψ d ∉ Stmt.optionItems φ n update := by
  cases h with
  | expr _ performs => exact performs.not_declared_mem _ _ _
  | empty => exact List.not_mem_nil

mutual

theorem SpellsStmt.declares {ψ : FramePath} : ∀ {t : Tree} {s : Stmt}, SpellsStmt source t s →
    ∀ {φ : FramePath} {n : Nat}, .declared ψ d ∈ s.items φ n → t.Declares source d
  | _, _, .varDecl spec, φ, n, hd => by
    simp only [Stmt.items, List.mem_append, Item.not_declared_mem_ofExpr?, List.mem_singleton,
      Item.declared.injEq, false_or] at hd
    exact hd.2 ▸ (spec.declares.part List.mem_cons_self).part List.mem_cons_self
  | _, _, .block body, φ, n, hd => (body.declares hd).part List.mem_cons_self
  | _, _, .form _ part, φ, n, hd => (part.declares hd).part List.mem_cons_self
  | _, _, .expr _ performs, φ, n, hd => absurd hd (performs.not_declared_mem _ _ _)
  | _, _, .ifThen _ thenBlock, φ, n, hd => by
    simp only [Stmt.items, Item.ofControl, Block.optionItems, List.append_nil, List.mem_cons,
      reduceCtorEq, false_or] at hd
    exact (thenBlock.declares hd).part (by simp)
  | _, _, .ifElse _ thenBlock elseBlock, φ, n, hd => by
    simp only [Stmt.items, Item.ofControl, Block.optionItems, List.mem_append, List.mem_cons,
      reduceCtorEq, false_or] at hd
    rcases hd with hd | hd
    · exact (thenBlock.declares hd).part (by simp)
    · exact (elseBlock.declares hd).part (by simp)
  | _, _, .ifElseIf _ thenBlock elseIf, φ, n, hd => by
    simp only [Stmt.items, Item.ofControl, Block.optionItems, Block.items, Stmt.allItems,
      List.append_nil, List.mem_append, List.mem_cons, reduceCtorEq, false_or] at hd
    rcases hd with hd | hd
    · exact (thenBlock.declares hd).part (by simp)
    · exact (elseIf.declares hd).part (by simp)
  | _, _, .whileLoop _ loop, φ, n, hd => by
    simp only [Stmt.items, Item.ofControl, List.mem_cons, reduceCtorEq, false_or] at hd
    exact (loop.declares hd).part (by simp)
  | _, _, .forLoop start _ step loop, φ, n, hd => by
    simp only [Stmt.items, Item.ofControl, List.mem_append, List.mem_cons, reduceCtorEq, false_or,
      Item.not_declared_mem_ofExpr?, step.not_declared_mem] at hd
    rcases hd with hd | hd
    · exact (start.declares hd).part (by simp)
    · exact (loop.declares hd).part (by simp)
  | _, _, .returnValue _, φ, n, hd => by simp [Stmt.items, Item.ofExpr?] at hd
  | _, _, .returnBare, φ, n, hd => by simp [Stmt.items, Item.ofExpr?] at hd

theorem SpellsBlock.declares {ψ : FramePath} : ∀ {t : Tree} {b : Block}, SpellsBlock source t b →
    ∀ {φ : FramePath}, .declared ψ d ∈ b.items φ → t.Declares source d
  | _, _, .full body, φ, hd => (body.declares hd).part (by simp)
  | _, _, .empty, φ, hd => by cases hd

theorem SpellsStmts.declares {ψ : FramePath} : ∀ {t : Tree} {ss : List Stmt},
    SpellsStmts source t ss → ∀ {φ : FramePath} {n : Nat}, .declared ψ d ∈ Stmt.allItems φ n ss →
    t.Declares source d
  | _, _, .first only, φ, n, hd => by
    rw [Stmt.allItems, Stmt.allItems, List.append_nil] at hd
    exact (only.declares hd).part List.mem_cons_self
  | _, _, .more before last, φ, n, hd => by
    rw [Stmt.allItems_append, Stmt.allItems, Stmt.allItems, List.append_nil, List.mem_append] at hd
    rcases hd with hd | hd
    · exact (before.declares hd).part (by simp)
    · exact (last.declares hd).part (by simp)

end

theorem SpellsDecl.declares {t : Tree} {decl : Decl} (h : SpellsDecl source t decl)
    (hd : d ∈ decl.variables) : t.Declares source d := by
  cases h with
  | var spec =>
    obtain rfl := List.mem_singleton.mp hd
    exact (spec.declares.part List.mem_cons_self).part List.mem_cons_self
  | func function =>
    obtain ⟨⟨ψ, _⟩, hmem, rfl⟩ := List.mem_map.mp hd
    obtain ⟨item, hitem, hdeclared⟩ := List.mem_filterMap.mp hmem
    cases item <;> cases hdeclared
    have hbody (b : Block) : Stmt.allItems [] 0 b.statements = b.items [] := by cases b; rfl
    rw [FunctionDef.items, hbody] at hitem
    cases function with
    | params _ _ block => exact ((block.declares hitem).part (by simp)).part List.mem_cons_self
    | noParams _ block => exact ((block.declares hitem).part (by simp)).part List.mem_cons_self

theorem SpellsDecls.declares {t : Tree} {ds : List Decl} (h : SpellsDecls source t ds)
    (hd : d ∈ ds.flatMap Decl.variables) : t.Declares source d := by
  induction h with
  | first only => exact (only.declares (by simpa using hd)).part List.mem_cons_self
  | more _ last ih =>
    rw [List.flatMap_append, List.mem_append] at hd
    rcases hd with hd | hd
    · exact (ih hd).part (by simp)
    · exact (last.declares (by simpa using hd)).part (by simp)

theorem SpellsProgram.declares {t : Tree} {p : Program} (h : SpellsProgram source t p)
    (hd : d ∈ p.variables) : t.Declares source d := by
  cases h with
  | decls declarations => exact (declarations.declares hd).part List.mem_cons_self
  | empty => cases hd

theorem Tree.Initializes.value {root value : Tree} (h : root.Initializes source value d)
    (hroot : root.WellFormed) :
    value.WellFormed ∧ value.symbol = .phrase .expr ∧ value.leaves <:+: root.leaves ∧
      d.initText = sliceOf source value.leaves := by
  obtain ⟨path, u, isConst, ts, v, hoccurs, hspec⟩ := h
  have hpart := hoccurs.part
  have hlast : (ts ++ [value]).getLast? = some value := List.getLast?_concat
  refine ⟨hpart.wellFormed hroot, ?_, ⟨_, _, by rw [hpart.leaves, List.append_assoc]⟩, ?_⟩
  · obtain ⟨us, value', heq, -, hvalue⟩ := Tree.exists_initializer (hoccurs.wellFormed hroot)
    rwa [List.head_eq_of_cons_eq (List.append_inj' heq rfl).2]
  · generalize hts : ts ++ [value] = children at hspec hlast
    cases hspec with
    | plainInit | constantInit =>
      obtain rfl := Option.some.inj hlast
      rfl

/-! ## The order of tokens -/

theorem ends_piecesFrom (pos : Position) (cs : List Char) :
    (tokensOf (piecesFrom pos cs)).Pairwise (fun s t => s.stop.offset < t.stop.offset) ∧
      ∀ t ∈ tokensOf (piecesFrom pos cs), pos.offset ≤ t.start.offset ∧
        t.start.offset < t.stop.offset ∧ t.stop.offset ≤ pos.offset + cs.length := by
  fun_induction piecesFrom pos cs with
  | case1 => exact ⟨.nil, by simp⟩
  | case2 pos c cs _ ih =>
    have hnext : (pos.next c).offset = pos.offset + 1 := Position.offset_advance pos [c]
    refine ⟨ih.1, fun t ht => ?_⟩
    have := ih.2 t ht
    rw [List.length_cons]
    omega
  | case3 pos c cs cls n _ lexeme ih =>
    have hnext : (pos.advance lexeme).offset = pos.offset + lexeme.length :=
      Position.offset_advance pos lexeme
    have hlexeme : lexeme.length + (cs.drop n).length = (c :: cs).length := by
      simp [lexeme]
      omega
    have hpos : 0 < lexeme.length := Nat.succ_pos _
    have hlater : ∀ t ∈ tokensOf (piecesFrom (pos.advance lexeme) (cs.drop n)),
        pos.offset + lexeme.length ≤ t.start.offset ∧ t.start.offset < t.stop.offset ∧
          t.stop.offset ≤ pos.offset + (c :: cs).length := by
      intro t ht
      have := ih.2 t ht
      omega
    cases cls with
    | ignored =>
      refine ⟨ih.1, fun t ht => ?_⟩
      have := hlater t ht
      omega
    | token kind =>
      rw [Piece.ofLexeme, tokensOf_token]
      refine ⟨List.pairwise_cons.mpr ⟨fun t ht => ?_, ih.1⟩, fun t ht => ?_⟩
      · have := hlater t ht
        show (pos.advance lexeme).offset < t.stop.offset
        omega
      · rcases List.mem_cons.mp ht with rfl | ht
        · show pos.offset ≤ pos.offset ∧ pos.offset < (pos.advance lexeme).offset ∧
            (pos.advance lexeme).offset ≤ pos.offset + (c :: cs).length
          omega
        · have := hlater t ht
          omega

theorem eq_of_stop_eq {s t : Token} (hs : s ∈ tokensOf (pieces source))
    (ht : t ∈ tokensOf (pieces source)) (h : s.stop.offset = t.stop.offset) : s = t := by
  have hnodup : ((tokensOf (pieces source)).map fun t => t.stop.offset).Nodup :=
    List.pairwise_map.mpr ((ends_piecesFrom .start source).1.imp Nat.ne_of_lt)
  exact List.inj_on_of_nodup_map hnodup hs ht h

/-! ## Places along a recovering parse -/

def EndsInOrder (w : List Token) : Prop :=
  w.Pairwise fun s t => s.stop.offset ≤ t.stop.offset

/-- The token `t` is one of `seen`, and none of them ends behind it. -/
def EndsLast (t : Token) (seen : List Token) : Prop :=
  t ∈ seen ∧ ∀ s ∈ seen, s.stop.offset ≤ t.stop.offset

theorem endsLast_append {before after : List Token} {t : Token}
    (h : EndsInOrder (before ++ t :: after)) : EndsLast t (before ++ [t]) := by
  refine ⟨by simp, fun s hs => ?_⟩
  rcases List.mem_append.mp hs with hs | hs
  · exact (List.pairwise_append.mp h).2.2 s hs t List.mem_cons_self
  · exact Nat.le_of_eq (by rw [List.mem_singleton.mp hs])

theorem stop_le_last {w : List Token} {last : Token} (h : EndsInOrder w)
    (hlast : w.getLast? = some last) : ∀ x ∈ w, x.stop.offset ≤ last.stop.offset := by
  obtain ⟨before, rfl⟩ := List.getLast?_eq_some_iff.mp hlast
  exact (endsLast_append h).2

def Token.InPlaceOf (x s : Token) : Prop :=
  x = s ∨ ∃ mark : Closer, x = mark.token s.span

theorem Token.InPlaceOf.stop_eq {x s : Token} (h : x.InPlaceOf s) : x.stop = s.stop := by
  rcases h with rfl | ⟨mark, rfl⟩ <;> rfl

/-- Each token of `w` is one of `seen` or a mark in the place of one, and they end one after the
other. -/
structure Anchored (seen w : List Token) : Prop where
  anchor : ∀ x ∈ w, ∃ s ∈ seen, x.InPlaceOf s
  ordered : EndsInOrder w

namespace Anchored

variable {seen u w : List Token} {t : Token}

theorem nil : Anchored seen [] :=
  ⟨by simp, .nil⟩

theorem pass (h : Anchored seen w) (t : Token) : Anchored (seen ++ [t]) w := by
  refine ⟨fun x hx => ?_, h.ordered⟩
  obtain ⟨s, hs, hx⟩ := h.anchor x hx
  exact ⟨s, List.mem_append_left _ hs, hx⟩

theorem sublist (h : Anchored seen w) (hu : u.Sublist w) : Anchored seen u :=
  ⟨fun x hx => h.anchor x (hu.subset hx), List.Pairwise.sublist hu h.ordered⟩

theorem snoc (h : Anchored seen w) (ht : EndsLast t seen) {x : Token} (hx : x.InPlaceOf t) :
    Anchored seen (w ++ [x]) := by
  refine ⟨fun y hy => ?_, List.pairwise_append.mpr ⟨h.ordered, List.pairwise_singleton _ _, ?_⟩⟩
  · rcases List.mem_append.mp hy with hy | hy
    · exact h.anchor y hy
    · exact ⟨t, ht.1, List.mem_singleton.mp hy ▸ hx⟩
  · intro y hy z hz
    obtain ⟨s, hs, hys⟩ := h.anchor y hy
    rw [List.mem_singleton.mp hz, hx.stop_eq, hys.stop_eq]
    exact ht.2 s hs

theorem marks (h : Anchored seen w) (ht : EndsLast t seen) (marks : List Closer) :
    Anchored seen (w ++ marks.map (·.token t.span)) := by
  induction marks generalizing w with
  | nil => simpa using h
  | cons mark marks ih =>
    have hmark := ih (h.snoc ht (.inr ⟨mark, rfl⟩))
    rwa [List.append_assoc] at hmark

end Anchored

namespace Parsing

open Automaton

theorem Takes.anchored {t : Token} {seen w w' : List Token} (h : Takes t w w')
    (hw : Anchored seen w) (ht : EndsLast t (seen ++ [t])) : Anchored (seen ++ [t]) w' := by
  cases h with
  | shifted first => exact ((hw.sublist first.sublist).pass t).snoc ht (.inl rfl)
  | inserted mark => exact ((hw.pass t).snoc ht (.inr ⟨mark, rfl⟩)).snoc ht (.inl rfl)
  | dropped => exact hw.pass t

theorem anchored_takeAll {seen w : List Token} {σ : Stack} (hσ : Stack.Path σ)
    (h : Anchored seen σ.leaves) (hends : EndsInOrder (seen ++ w)) :
    Stack.Path (takeAll σ w) ∧ Anchored (seen ++ w) (takeAll σ w).leaves := by
  induction w generalizing seen σ with
  | nil =>
    rw [List.append_nil]
    exact ⟨hσ, h⟩
  | cons t w ih =>
    obtain ⟨hpath, htakes⟩ := takes_take hσ t
    have hanchored := htakes.anchored h (endsLast_append hends)
    rw [List.append_cons] at hends ⊢
    exact ih hpath hanchored hends

theorem leaves_close_nil {last : Span} {tree : Tree} (h : (close last []).tree = some tree) :
    tree.leaves = [] := by
  obtain ⟨done, hfinish⟩ := exists_finish_nil
  simp only [close, hfinish, Option.some.injEq] at h
  rw [← h, (Stack.path_of_finish_ok .nil hfinish).2.2, Stack.leaves_nil]

theorem anchored_recover {tree : Tree} (h : (recover (pieces source)).tree = some tree) :
    Anchored (tokensOf (pieces source)) tree.leaves := by
  have hends : EndsInOrder (tokensOf (pieces source)) :=
    (ends_piecesFrom .start source).1.imp Nat.le_of_lt
  obtain ⟨hpath, hanchored⟩ := @anchored_takeAll [] (tokensOf (pieces source)) [] .nil .nil hends
  rw [tree_recover] at h
  rcases List.eq_nil_or_concat (tokensOf (pieces source)) with hnone | ⟨before, t, htokens⟩
  · rw [hnone] at h ⊢
    rw [leaves_close_nil h]
    exact .nil
  · rw [List.concat_eq_append] at htokens
    have hplace : lastSpan ⟨.start, .start⟩ (pieces source) = t.span := by
      rw [lastSpan, htokens, List.getLast?_concat]
      rfl
    obtain ⟨marks, hderives⟩ := derives_close hpath h
    rw [hderives.leaves, hplace]
    refine hanchored.marks ?_ marks
    rw [List.nil_append, htokens]
    exact endsLast_append (htokens ▸ hends)

end Parsing

/-! ## Texts -/

/-- Those of the tokens `w` that are tokens of the source. A mark in the place of a token of its own
kind is that token. -/
def sourceTokens (source : List Char) (w : List Token) : List Token :=
  w.filter (· ∈ tokensOf (pieces source))

theorem mem_sourceTokens {w : List Token} {t : Token} :
    t ∈ sourceTokens source w ↔ t ∈ w ∧ t ∈ tokensOf (pieces source) := by
  simp [sourceTokens]

theorem sliceOf_of_ends {w : List Token} {first last : Token} (hfirst : w.head? = some first)
    (hlast : w.getLast? = some last) : sliceOf source w = sliceOf source [first, last] := by
  simp [sliceOf, hfirst, hlast]

theorem sliceOf_eq_iff {first s t : Token} (hs : first.start.offset ≤ s.stop.offset)
    (ht : first.start.offset ≤ t.stop.offset) (hs' : s.stop.offset ≤ source.length)
    (ht' : t.stop.offset ≤ source.length) :
    sliceOf source [first, s] = sliceOf source [first, t] ↔ s.stop.offset = t.stop.offset := by
  simp only [sliceOf, List.head?_cons, List.getLast?_cons_cons, List.getLast?_singleton]
  constructor
  · intro h
    have hlength := congrArg List.length (String.ofList_injective h)
    simp only [List.length_take, List.length_drop] at hlength
    omega
  · intro h
    rw [h]

/-- The text from the first to the last of anchored tokens, of which the first is one of the source,
reaches to the end of a token of the source. It is the text of the tokens of the source among them if
that token is one of them. -/
theorem Anchored.sliceOf_iff {w : List Token} {first : Token}
    (h : Anchored (tokensOf (pieces source)) w) (hfirst : w.head? = some first)
    (hmem : first ∈ tokensOf (pieces source)) :
    ∃ s ∈ tokensOf (pieces source), ∃ last, w.getLast? = some last ∧ last.InPlaceOf s ∧
      sliceOf source w = sliceOf source [first, s] ∧
      (sliceOf source w = sliceOf source (sourceTokens source w) ↔ s ∈ w) := by
  have hne : w ≠ [] := by
    rintro rfl
    cases hfirst
  obtain ⟨last, hlast⟩ : ∃ last, w.getLast? = some last :=
    ⟨_, List.getLast?_eq_some_getLast hne⟩
  obtain ⟨s, hs, hplace⟩ := h.anchor last (List.mem_of_getLast? hlast)
  have hslice : sliceOf source w = sliceOf source [first, s] := by
    rw [sliceOf_of_ends hfirst hlast]
    simp [sliceOf, hplace.stop_eq]
  have hfirst' : (sourceTokens source w).head? = some first := by
    obtain ⟨rest, rfl⟩ := List.head?_eq_some_iff.mp hfirst
    simp [sourceTokens, hmem]
  have hfirstmem : first ∈ sourceTokens source w := List.mem_of_head? hfirst'
  obtain ⟨k, hk⟩ : ∃ k, (sourceTokens source w).getLast? = some k :=
    ⟨_, List.getLast?_eq_some_getLast (List.ne_nil_of_mem hfirstmem)⟩
  obtain ⟨hkw, hksource⟩ := mem_sourceTokens.mp (List.mem_of_getLast? hk)
  have hle : ∀ x ∈ w, x.stop.offset ≤ s.stop.offset :=
    hplace.stop_eq ▸ stop_le_last h.ordered hlast
  have hle' : ∀ x ∈ sourceTokens source w, x.stop.offset ≤ k.stop.offset :=
    stop_le_last (h.sublist List.filter_sublist).ordered hk
  have hiff : sliceOf source [first, s] = sliceOf source [first, k] ↔
      s.stop.offset = k.stop.offset := by
    have hbounds := (ends_piecesFrom .start source).2
    have hstart := (hbounds first hmem).2.1
    have hbefore := hle first (List.mem_of_head? hfirst)
    have hbefore' := hle' first hfirstmem
    refine sliceOf_eq_iff (by omega) (by omega) ?_ ?_
    · simpa [Position.start] using (hbounds s hs).2.2
    · simpa [Position.start] using (hbounds k hksource).2.2
  refine ⟨s, hs, last, hlast, hplace, hslice, ?_⟩
  rw [hslice, sliceOf_of_ends hfirst' hk, hiff]
  constructor
  · intro heq
    rwa [eq_of_stop_eq hs hksource heq]
  · intro hsw
    exact Nat.le_antisymm (hle' s (mem_sourceTokens.mpr ⟨hsw, hs⟩)) (hle k hkw)

/-! ## Initializers -/

theorem mark_not_mem_first (mark : Closer) :
    mark.terminal ∉ GrammarSymbol.first (.phrase .expr) := by
  cases mark <;> decide

/-- In a recovered tree, the text of an expression goes from its first token, which is one of the
source, to the end of a token of the source. -/
theorem Anchored.expr {value : Tree} (hvalue : value.WellFormed)
    (hexpr : value.symbol = .phrase .expr)
    (h : Anchored (tokensOf (pieces source)) value.leaves) :
    ∃ first ∈ tokensOf (pieces source), ∃ s ∈ tokensOf (pieces source), ∃ last,
      value.leaves.head? = some first ∧ value.leaves.getLast? = some last ∧
      (last = s ∨ last = Closer.paren.token s.span) ∧
      sliceOf source value.leaves = sliceOf source [first, s] ∧
      (sliceOf source value.leaves = sliceOf source (sourceTokens source value.leaves) ↔
        s ∈ value.leaves) := by
  obtain ⟨hnil, hcons⟩ := Tree.leaves_start hvalue
  cases hleaves : value.leaves with
  | nil =>
    have hempty := hnil hleaves
    rw [hexpr] at hempty
    cases hempty
  | cons first rest =>
    have hkind := hcons first rest hleaves
    rw [hexpr] at hkind
    have hmem : first ∈ tokensOf (pieces source) := by
      obtain ⟨s, hs, rfl | ⟨mark, rfl⟩⟩ := h.anchor first (by simp [hleaves])
      · exact hs
      · exact absurd hkind (mark_not_mem_first mark)
    rw [hleaves] at h
    obtain ⟨s, hs, last, hlast, hplace, hslice, hiff⟩ := h.sliceOf_iff rfl hmem
    refine ⟨first, hmem, s, hs, last, rfl, hlast, ?_, hslice, hiff⟩
    rcases hplace with rfl | ⟨mark, rfl⟩
    · exact .inl rfl
    · have hinner := isBoundary_of_mem_leaves (by decide) value hvalue hexpr (mark.token s.span)
        (hleaves ▸ List.mem_of_getLast? hlast)
      cases mark with
      | paren => exact .inr rfl
      | semicolon | brace => cases hinner

/-- The text of an initializer in a recovered program. Each variable with a value is declared by a
part of the recovered tree, with a tree for its initializer. The text goes from the first token of
that tree, which is one of the source, to the end of a token `s` of the source, which is its last
token or the one whose place an inserted parenthesis there has borrowed. This is the text of the
tokens of the source in the initializer if and only if `s` is one of them. -/
theorem recovered_initText {r : Parsed} {p : Program} (hr : Parsed.ofSource source = .ok r)
    (hp : r.program = some p) :
    ∃ tree, (Parsing.recover (pieces source)).tree = some tree ∧ SpellsProgram source tree p ∧
      (∀ d ∈ p.variables, d.value.isSome = true → ∃ value, tree.Initializes source value d) ∧
      ∀ d value, tree.Initializes source value d →
        ∃ first ∈ tokensOf (pieces source), ∃ s ∈ tokensOf (pieces source), ∃ last,
          value.leaves.head? = some first ∧ value.leaves.getLast? = some last ∧
          (last = s ∨ last = Closer.paren.token s.span) ∧
          d.initText = sliceOf source [first, s] ∧
          (d.initText = sliceOf source (sourceTokens source value.leaves) ↔
            s ∈ value.leaves) := by
  obtain ⟨hprogram, -⟩ := parsed_eq_ok.mp hr
  rw [hp] at hprogram
  obtain ⟨tree, htree, hread⟩ := program_eq_some hprogram
  obtain ⟨hderives, -⟩ := Parsing.derives_recover htree
  have hspells := spells_of_reading hderives hread
  refine ⟨tree, htree, hspells, fun d hd hvalue => (hspells.declares hd).exists_initializer hvalue,
    fun d value hinit => ?_⟩
  obtain ⟨hvalue, hexpr, hpart, htext⟩ := hinit.value hderives.wellFormed
  rw [htext]
  exact ((Parsing.anchored_recover htree).sublist hpart.sublist).expr hvalue hexpr

def closedAtEnd : List Char :=
  "int x = (1".toList

/-- In `int x = (1` the parenthesis is inserted in the place of the `1` and adds nothing. -/
theorem closedAtEnd_initText : ∃ r p tree d value, Parsed.ofSource closedAtEnd = .ok r ∧
    r.program = some p ∧ (Parsing.recover (pieces closedAtEnd)).tree = some tree ∧
    d ∈ p.variables ∧ tree.Initializes closedAtEnd value d ∧ d.initText = "(1" := by
  have hvariables : ((Parsed.ofSource closedAtEnd).toOption.bind (·.program)).map
      (·.variables.map fun d => (d.value.isSome, d.initText)) = some [(true, "(1")] := by
    decide +kernel
  cases hr : Parsed.ofSource closedAtEnd with
  | error e =>
    rw [hr] at hvariables
    cases hvariables
  | ok r =>
    rw [hr] at hvariables
    obtain ⟨p, hp, hvariables⟩ := Option.map_eq_some_iff.mp hvariables
    obtain ⟨d, hd, htext⟩ := List.map_eq_singleton_iff.mp hvariables
    obtain ⟨hvalue, htext⟩ := Prod.mk.inj htext
    have hmem : d ∈ p.variables := by simp [hd]
    obtain ⟨tree, htree, -, hinit, -⟩ := recovered_initText hr hp
    obtain ⟨value, hvalue⟩ := hinit d hmem hvalue
    exact ⟨r, p, tree, d, value, rfl, hp, htree, hmem, hvalue, htext⟩

def Tree.ofAtom (atom : Tree) : Tree :=
  .node .expr [.node .assignNone [.node (.operand .or) [.node (.operand .and)
    [.node (.operand .equality) [.node (.operand .relation) [.node (.operand .sum)
      [.node (.operand .product) [.node .unaryAtom [atom]]]]]]]]]

theorem SpellsExpr.ofAtom {atom : Tree} {e : Expr} (h : SpellsExpr atom e) :
    SpellsExpr (.ofAtom atom) e :=
  .expr (.assignNone (.operand (.operand (.operand (.operand (.operand (.operand
    (.unaryAtom h))))))))

/-- A variable whose initializer is not closed before the semicolon. -/
def unclosed : List Char :=
  "int x = (1;".toList

/-- The derivation of its initializer, with a parenthesis in the place of the semicolon. -/
def unclosedValue : Tree :=
  .ofAtom (.node .paren [.leaf (tokenAt 8 .lpar "("),
    .ofAtom (.node .intLit [.leaf (tokenAt 9 .intLit "1")]), .leaf (tokenAt 10 .rpar ")")])

def unclosedSpec : Tree :=
  .node (.varSpec false true) ([.node (.typeName .int) [.leaf (tokenAt 0 .int "int")],
    .leaf (tokenAt 4 .name "x"), .leaf (tokenAt 6 .equal "=")] ++ [unclosedValue])

def unclosedTree : Tree :=
  .node .declVar [.node .varDecl [unclosedSpec, .leaf (tokenAt 10 .semicolon ";")]]

theorem exists_spells_unclosed : ∃ d, SpellsVar unclosed unclosedSpec d ∧ d.initText = "(1;" :=
  ⟨_, .plainInit .mk (.ofAtom (.paren (.ofAtom .int))), by decide +kernel⟩

theorem occurs_unclosedSpec : ∃ path u v, (onlyDecl unclosedTree).Occurs path u unclosedSpec v := by
  have hprogram : (onlyDecl unclosedTree).Occurs _ _ (.node .programDecls ([] ++ _ :: [])) _ := .root
  have hdecls : (onlyDecl unclosedTree).Occurs _ _ (.node .declsFirst ([] ++ _ :: [])) _ :=
    hprogram.part
  have hdecl : (onlyDecl unclosedTree).Occurs _ _ (.node .declVar ([] ++ _ :: [])) _ := hdecls.part
  have hvar : (onlyDecl unclosedTree).Occurs _ _ (.node .varDecl ([] ++ unclosedSpec :: _)) _ :=
    hdecl.part
  exact ⟨_, _, _, hvar.part⟩

/-- In `int x = (1;` the inserted parenthesis adds the semicolon, whose place it borrows, to the text
of the initializer. -/
theorem unclosed_initText : ∃ r p tree d value, Parsed.ofSource unclosed = .ok r ∧
    r.program = some p ∧ (Parsing.recover (pieces unclosed)).tree = some tree ∧
    d ∈ p.variables ∧ tree.Initializes unclosed value d ∧ d.initText = "(1;" ∧
    sliceOf unclosed (sourceTokens unclosed value.leaves) = "(1" := by
  have hleaves : (Parsing.recover (pieces unclosed)).tree.map Tree.leaves =
      some (onlyDecl unclosedTree).leaves := by decide +kernel
  obtain ⟨tree, htree, hleaves⟩ := Option.map_eq_some_iff.mp hleaves
  have hderives : (onlyDecl unclosedTree).Derives (.phrase .program) tree.leaves := by
    refine ⟨?_, rfl, hleaves.symm⟩
    simp [onlyDecl, unclosedTree, unclosedSpec, unclosedValue, Tree.ofAtom, Tree.WellFormed,
      Tree.AllWellFormed, Rule.body, Rule.category, Level.category, Level.operand,
      BasicType.terminal, tokenAt]
  obtain rfl := Parsing.eq_of_derives_program (Parsing.derives_recover htree).1 hderives
  obtain ⟨d, hspec, htext⟩ := exists_spells_unclosed
  have hread : Reading.program unclosed (onlyDecl unclosedTree) = .ok ⟨[.var d]⟩ :=
    (SpellsProgram.decls (.first (.var hspec))).reading (hderives.readable (by decide))
  have hprogram : (Parsing.recover (pieces unclosed)).program unclosed =
      .ok (some ⟨[.var d]⟩) := by
    rw [Recovered.program, htree]
    exact congrArg (some <$> ·) hread
  obtain ⟨path, u, v, hoccurs⟩ := occurs_unclosedSpec
  exact ⟨⟨some ⟨[.var d]⟩, _⟩, _, _, d, unclosedValue, parsed_eq_ok.mpr ⟨hprogram, rfl⟩, rfl, htree,
    List.mem_cons_self, ⟨path, u, false, _, v, hoccurs, hspec⟩, htext, by decide +kernel⟩

end Sema
