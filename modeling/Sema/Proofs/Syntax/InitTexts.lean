import Sema.Proofs.Grammar.Joining
import Sema.Proofs.Lexical.Lexemes
import Sema.Proofs.Syntax.Contents
import Sema.Proofs.Syntax.Bare
import Sema.Proofs.Syntax.Outcomes

/-!
# The texts of initializers

The texts of the initializers of a program, in the order in which they are written
(`Program.initTexts`), are the parts of the source that the trees of the initializers cover
(`SpellsProgram.initTexts`). So two derivations that differ in the places of their tokens have the
same texts, if between the same tokens of the two sources there are the same texts, except across
semicolons and braces, which no initializer holds (`SameSlices.initTexts`).
-/

namespace Sema

/-! ## Programs -/

/-- The texts of the initializers of the variables that are declared among items. -/
@[simp] def Item.initTexts : List Item → List String
  | [] => []
  | .declared _ decl :: items => decl.initText :: initTexts items
  | _ :: items => initTexts items

def Decl.initTexts : Decl → List String
  | .func f => Item.initTexts f.items
  | .var d => [d.initText]
  | .unsupported => []

/-- The texts of the initializers of a program, in the order of the source. -/
def Program.initTexts (p : Program) : List String :=
  p.declarations.flatMap Decl.initTexts

def Program.Same (p q : Program) : Prop :=
  p.bare = q.bare ∧ p.initTexts = q.initTexts

@[simp] theorem Item.initTexts_append (items items' : List Item) :
    initTexts (items ++ items') = initTexts items ++ initTexts items' := by
  induction items with
  | nil => rfl
  | cons item items ih => cases item <;> simp [ih]

@[simp] theorem Item.initTexts_ofExpr? (e : Option Expr) : initTexts (ofExpr? e) = [] := by
  cases e <;> rfl

@[simp] theorem Item.initTexts_ofControl (kind : ControlKind) (loc : Location)
    (items : List Item) : initTexts (ofControl kind loc :: items) = initTexts items := rfl

theorem Stmt.allItems_append (φ : FramePath) (ss ss' : List Stmt) (n : Nat) :
    allItems φ n (ss ++ ss') = allItems φ n ss ++ allItems φ (n + ss.length) ss' := by
  induction ss generalizing n with
  | nil => rfl
  | cons s ss ih =>
    rw [List.cons_append, allItems, allItems, ih, List.append_assoc, List.length_cons]
    congr 3
    omega

/-! ## Trees -/

mutual

/-- The texts of the initializers in a tree; a variable without one counts as `null`. -/
@[simp] def Tree.initTexts (source : List Char) : Tree → List String
  | .leaf _ => []
  | .node (.varSpec _ false) _ => ["null"]
  | .node (.varSpec _ true) ts => (ts.getLast?.map fun value => sliceOf source value.leaves).toList
  | .node _ ts => initTextsAll source ts

@[simp] def Tree.initTextsAll (source : List Char) : List Tree → List String
  | [] => []
  | t :: ts => initTexts source t ++ initTextsAll source ts

end

variable {source : List Char}

mutual

theorem SpellsExpr.initTexts : ∀ {t : Tree} {e : Expr}, SpellsExpr t e → t.initTexts source = []
  | _, _, .expr part | _, _, .assignNone part | _, _, .operand part | _, _, .unaryAtom part => by
    simpa using part.initTexts
  | _, _, .assignTo value | _, _, .not value | _, _, .paren value => by simpa using value.initTexts
  | _, _, .binary left right => by simp [left.initTexts, right.initTexts]
  | _, _, .int | _, _, .float _ | _, _, .string _ | _, _, .name | _, _, .callEmpty => by simp
  | _, _, .call arguments => by simpa using arguments.initTexts

theorem SpellsArgs.initTexts : ∀ {t : Tree} {es : List Expr}, SpellsArgs t es →
    t.initTexts source = []
  | _, _, .many first rest => by simp [first.initTexts, rest.initTexts]
  | _, _, .one only | _, _, .tailFirst only => by simpa using only.initTexts
  | _, _, .tailMore more last => by simp [more.initTexts, last.initTexts]

end

theorem SpellsVar.initTexts {t : Tree} {d : VarDecl} (h : SpellsVar source t d) :
    t.initTexts source = [d.initText] := by
  cases h <;> simp

theorem Performs.initTexts {e : Expr} {s : Stmt} (h : Performs e s) (φ : FramePath) (n : Nat) :
    Item.initTexts (s.items φ n) = [] := by
  cases h <;> simp [Stmt.items]

theorem SpellsInit.initTexts {t : Tree} {init : Option Stmt} (h : SpellsInit source t init)
    (φ : FramePath) (n : Nat) :
    Item.initTexts (Stmt.optionItems φ n init) = t.initTexts source := by
  cases h with
  | var spec => simp [Stmt.optionItems, Stmt.items, spec.initTexts]
  | expr value performs => simp [Stmt.optionItems, performs.initTexts, value.initTexts]
  | empty => rfl

theorem SpellsCond.initTexts {t : Tree} {condition : Option Expr} (h : SpellsCond t condition) :
    t.initTexts source = [] := by
  cases h with
  | expr value => simp [value.initTexts]
  | empty => rfl

theorem SpellsUpdate.initTexts (source : List Char) {t : Tree} {update : Option Stmt}
    (h : SpellsUpdate t update) (φ : FramePath) (n : Nat) :
    Item.initTexts (Stmt.optionItems φ n update) = t.initTexts source := by
  cases h with
  | expr value performs => simp [Stmt.optionItems, performs.initTexts, value.initTexts]
  | empty => rfl

mutual

theorem SpellsStmt.initTexts : ∀ {t : Tree} {s : Stmt}, SpellsStmt source t s →
    ∀ (φ : FramePath) (n : Nat), Item.initTexts (s.items φ n) = t.initTexts source
  | _, _, .varDecl spec, φ, n => by simp [Stmt.items, spec.initTexts]
  | _, _, .block body, φ, n => by simp [Stmt.items, body.initTexts]
  | _, _, .form _ part, φ, n => by simp [part.initTexts φ n]
  | _, _, .expr value performs, φ, n => by simp [performs.initTexts, value.initTexts]
  | _, _, .ifThen condition thenBlock, φ, n => by
    simp [Stmt.items, Block.optionItems, condition.initTexts, thenBlock.initTexts]
  | _, _, .ifElse condition thenBlock elseBlock, φ, n => by
    simp [Stmt.items, Block.optionItems, condition.initTexts, thenBlock.initTexts,
      elseBlock.initTexts]
  | _, _, .ifElseIf condition thenBlock elseIf, φ, n => by
    simp [Stmt.items, Block.optionItems, Block.items, Stmt.allItems,
      condition.initTexts, thenBlock.initTexts, elseIf.initTexts]
  | _, _, .whileLoop condition loop, φ, n => by
    simp [Stmt.items, condition.initTexts, loop.initTexts]
  | _, _, .forLoop start test step loop, φ, n => by
    simp [Stmt.items, start.initTexts, test.initTexts, step.initTexts source,
      loop.initTexts]
  | _, _, .returnValue value, φ, n => by simp [Stmt.items, value.initTexts]
  | _, _, .returnBare, φ, n => by simp [Stmt.items]

theorem SpellsBlock.initTexts : ∀ {t : Tree} {b : Block}, SpellsBlock source t b →
    ∀ φ : FramePath, Item.initTexts (b.items φ) = t.initTexts source
  | _, _, .full body, φ => by simp [Block.items, body.initTexts]
  | _, _, .empty, φ => by simp [Block.items, Stmt.allItems]

theorem SpellsStmts.initTexts : ∀ {t : Tree} {ss : List Stmt}, SpellsStmts source t ss →
    ∀ (φ : FramePath) (n : Nat), Item.initTexts (Stmt.allItems φ n ss) = t.initTexts source
  | _, _, .first only, φ, n => by simp [Stmt.allItems, only.initTexts]
  | _, _, .more before last, φ, n => by
    simp [Stmt.allItems_append, Stmt.allItems, before.initTexts, last.initTexts]

end

theorem Tree.initTextsAll_append (ts us : List Tree) :
    initTextsAll source (ts ++ us) = initTextsAll source ts ++ initTextsAll source us := by
  induction ts with
  | nil => rfl
  | cons t ts ih => simp [ih]

theorem SpellsParams.initTexts {t : Tree} {ps : List Param} (h : SpellsParams t ps) :
    t.initTexts source = [] := by
  have hparam {t : Tree} {p : Param} (h : SpellsParam t p) : t.initTexts source = [] := by
    obtain ⟨⟨⟩⟩ := h
    simp
  induction h with
  | many first _ ih => simp [hparam first, ih]
  | one only | tailFirst only => simp [hparam only]
  | tailMore _ last ih => simp [hparam last, ih]

theorem SpellsResult.initTexts {form : ResultForm} {ts : List Tree} {result : Option String}
    (h : SpellsResult form ts result) : Tree.initTextsAll source ts = [] := by
  cases h with
  | typed typed =>
    cases typed
    simp
  | void => simp
  | absent => rfl

theorem SpellsFunction.initTexts {t : Tree} {f : FunctionDef} (h : SpellsFunction source t f) :
    Item.initTexts f.items = t.initTexts source := by
  have hitems (b : Block) : Stmt.allItems [] 0 b.statements = b.items [] := by cases b; rfl
  cases h with
  | params type parameters block =>
    simp [FunctionDef.items, hitems, block.initTexts, Tree.initTextsAll_append, type.initTexts,
      parameters.initTexts]
  | noParams type block =>
    simp [FunctionDef.items, hitems, block.initTexts, Tree.initTextsAll_append, type.initTexts]

theorem SpellsDecl.initTexts {t : Tree} {d : Decl} (h : SpellsDecl source t d) :
    d.initTexts = t.initTexts source := by
  cases h with
  | var spec => simp [Decl.initTexts, spec.initTexts]
  | func function => simp [Decl.initTexts, function.initTexts]

theorem SpellsDecls.initTexts {t : Tree} {ds : List Decl} (h : SpellsDecls source t ds) :
    ds.flatMap Decl.initTexts = t.initTexts source := by
  induction h with
  | first only => simp [only.initTexts]
  | more _ last ih => simp [ih, last.initTexts]

/-- The texts of the initializers of a program are those of its tree. -/
theorem SpellsProgram.initTexts {t : Tree} {p : Program} (h : SpellsProgram source t p) :
    p.initTexts = t.initTexts source := by
  cases h with
  | decls declarations => simp [Program.initTexts, declarations.initTexts]
  | empty => rfl

/-! ## Other places -/

/-- The categories of expressions and of their arguments. -/
def Category.ofExpressions : List Category :=
  [.expr, .assign, .orExpr, .andExpr, .eqExpr, .relExpr, .addExpr, .mulExpr, .unary, .atom, .args,
    .argTail]

/-- The categories of the phrases in which no statement and no block ends. -/
def Category.endless : List Category :=
  .varSpec :: .param :: .typeName :: ofExpressions

theorem body_of_endless {r : Rule} (hr : r.category ∈ Category.endless) {x : GrammarSymbol}
    (hx : x ∈ r.body) :
    (∀ kind, x = .terminal kind → kind.isBoundary = false) ∧
      ∀ c, x = .phrase c → c ∈ Category.endless := by
  have hall := Rule.of_all_rules (p := fun r => !Category.endless.contains r.category ||
    r.body.all (GrammarSymbol.test (!·.isBoundary) Category.endless.contains)) (by decide +kernel) r
  rw [List.contains_iff_mem.mpr hr, Bool.not_true, Bool.false_or, List.all_eq_true] at hall
  have hfound := hall x hx
  refine ⟨fun kind hkind => ?_, fun c hc => ?_⟩
  · simpa [hkind, GrammarSymbol.test] using hfound
  · simpa [hc, GrammarSymbol.test] using hfound

theorem exists_mem_of_mem_leavesAll {ts : List Tree} {token : Token}
    (h : token ∈ Tree.leavesAll ts) : ∃ t ∈ ts, token ∈ t.leaves := by
  induction ts with
  | nil => cases h
  | cons t ts ih =>
    rcases List.mem_append.mp h with hmem | hmem
    · exact ⟨t, List.mem_cons_self, hmem⟩
    · obtain ⟨t', ht', hmem'⟩ := ih hmem
      exact ⟨t', List.mem_cons_of_mem _ ht', hmem'⟩

theorem isBoundary_of_mem_leaves {c : Category} (hc : c ∈ Category.endless) (t : Tree)
    (ht : t.WellFormed) (hsymbol : t.symbol = .phrase c) :
    ∀ token ∈ t.leaves, token.kind.isBoundary = false := by
  induction t using Tree.ind generalizing c with
  | leaf token => cases hsymbol
  | node r ts ih =>
    obtain rfl : r.category = c := GrammarSymbol.phrase.inj hsymbol
    obtain ⟨hbody, hts⟩ := ht
    intro token htoken
    obtain ⟨t, ht, hmem⟩ := exists_mem_of_mem_leavesAll htoken
    have hsymbol : t.symbol ∈ r.body := hbody ▸ List.mem_map_of_mem ht
    obtain ⟨hterminal, hphrase⟩ := body_of_endless hc hsymbol
    cases t with
    | leaf token' =>
      obtain rfl := List.mem_singleton.mp hmem
      exact hterminal _ rfl
    | node r' ts' =>
      exact ih _ ht (hphrase _ rfl) (Reading.wellFormed_of_mem hts ht) rfl token hmem

theorem Tree.exists_initializer {isConst : Bool} {ts : List Tree}
    (ht : (Tree.node (.varSpec isConst true) ts).WellFormed) :
    ∃ us value, ts = us ++ [value] ∧ value.WellFormed ∧ value.symbol = .phrase .expr := by
  obtain ⟨xs, hxs⟩ : ∃ xs, (Rule.varSpec isConst true).body = xs ++ [.phrase .expr] := by
    cases isConst
    · exact ⟨[.phrase .typeName, .terminal .name, .terminal .equal], rfl⟩
    · exact ⟨[.terminal .const, .phrase .typeName, .terminal .name, .terminal .equal], rfl⟩
  obtain ⟨us, value, rfl, hvalue⟩ := exists_append_of_map_eq (ht.1.trans hxs)
  exact ⟨us, value, rfl, (allWellFormed_append_cons ht.2).2.1, hvalue⟩

theorem Tree.length_leaves_of_bare_eq {t t' : Tree} (h : t'.bare = t.bare) :
    t'.leaves.length = t.leaves.length := by
  have hleaves := congrArg Tree.leaves h
  rw [leaves_bare, leaves_bare] at hleaves
  simpa using congrArg List.length hleaves

theorem Tree.length_leavesAll_of_bare_eq {ts ts' : List Tree} (h : bareAll ts' = bareAll ts) :
    (leavesAll ts').length = (leavesAll ts).length := by
  have hleaves := congrArg Tree.leavesAll h
  rw [leavesAll_bareAll, leavesAll_bareAll] at hleaves
  simpa using congrArg List.length hleaves

section

variable {source source' : List Char} {w w' : List Token}

/-- Where no statement and no block ends, between the same tokens of two texts there are the same
texts. -/
def SameSlices (source source' : List Char) (w w' : List Token) : Prop :=
  ∀ u x v u' x' v', w = u ++ (x ++ v) → w' = u' ++ (x' ++ v') → u'.length = u.length →
    x'.length = x.length → (∀ token ∈ x, token.kind.isBoundary = false) →
    sliceOf source' x' = sliceOf source x

theorem SameSlices.initializer (h : SameSlices source source' w w') {isConst : Bool}
    {ts ts' : List Tree} {u v u' v' : List Token}
    (ht : (Tree.node (.varSpec isConst true) ts).WellFormed)
    (hbare : Tree.bareAll ts' = Tree.bareAll ts) (hw : w = u ++ (Tree.leavesAll ts ++ v))
    (hw' : w' = u' ++ (Tree.leavesAll ts' ++ v')) (hu : u'.length = u.length) :
    (Tree.node (.varSpec isConst true) ts').initTexts source' =
      (Tree.node (.varSpec isConst true) ts).initTexts source := by
  obtain ⟨us, value, rfl, hwf, hvalue⟩ := Tree.exists_initializer ht
  rw [Tree.bareAll_eq_map, Tree.bareAll_eq_map, List.map_append, List.map_singleton] at hbare
  obtain ⟨us', last, rfl, hus, hlast⟩ := List.map_eq_append_iff.mp hbare
  obtain ⟨value', rfl, hvalue'⟩ := List.map_eq_singleton_iff.mp hlast
  rw [← Tree.bareAll_eq_map, ← Tree.bareAll_eq_map] at hus
  have hsame : sliceOf source' value'.leaves = sliceOf source value.leaves := by
    refine h (u ++ Tree.leavesAll us) value.leaves v (u' ++ Tree.leavesAll us') value'.leaves v'
      ?_ ?_ ?_ (Tree.length_leaves_of_bare_eq hvalue')
      (isBoundary_of_mem_leaves (by decide) value hwf hvalue)
    · simpa [Tree.leavesAll_append, Tree.leavesAll] using hw
    · simpa [Tree.leavesAll_append, Tree.leavesAll] using hw'
    · rw [List.length_append, List.length_append, hu, Tree.length_leavesAll_of_bare_eq hus]
  simp [hsame]

mutual

/-- Trees that differ in the places of their tokens have the same texts of initializers, if the
sources have the same texts between them. -/
theorem SameSlices.initTexts (h : SameSlices source source' w w') :
    ∀ {t t' : Tree}, t.WellFormed → t'.bare = t.bare → ∀ {u v u' v' : List Token},
      w = u ++ (t.leaves ++ v) → w' = u' ++ (t'.leaves ++ v') → u'.length = u.length →
      t'.initTexts source' = t.initTexts source
  | .leaf _, .leaf _, _, _, _, _, _, _, _, _, _ => rfl
  | .leaf _, .node _ _, _, hbare, _, _, _, _, _, _, _ => by cases hbare
  | .node _ _, .leaf _, _, hbare, _, _, _, _, _, _, _ => by cases hbare
  | .node r ts, .node r' ts', ht, hbare, u, v, u', v', hw, hw', hu => by
    obtain ⟨rfl, hparts⟩ := Tree.node.inj hbare
    have hall := h.initTextsAll ht.2 hparts hw hw' hu
    cases r' with
    | varSpec isConst hasValue =>
      cases hasValue with
      | false => simp
      | true => exact h.initializer ht hparts hw hw' hu
    | _ => exact hall

theorem SameSlices.initTextsAll (h : SameSlices source source' w w') :
    ∀ {ts ts' : List Tree}, Tree.AllWellFormed ts → Tree.bareAll ts' = Tree.bareAll ts →
      ∀ {u v u' v' : List Token}, w = u ++ (Tree.leavesAll ts ++ v) →
      w' = u' ++ (Tree.leavesAll ts' ++ v') → u'.length = u.length →
      Tree.initTextsAll source' ts' = Tree.initTextsAll source ts
  | [], [], _, _, _, _, _, _, _, _, _ => rfl
  | [], _ :: _, _, hbare, _, _, _, _, _, _, _ => by cases hbare
  | _ :: _, [], _, hbare, _, _, _, _, _, _, _ => by cases hbare
  | t :: ts, t' :: ts', hts, hbare, u, v, u', v', hw, hw', hu => by
    obtain ⟨hfirst, hrest⟩ := List.cons.inj hbare
    rw [Tree.leavesAll, List.append_assoc] at hw hw'
    have hlength : (u' ++ t'.leaves).length = (u ++ t.leaves).length := by
      rw [List.length_append, List.length_append, hu, Tree.length_leaves_of_bare_eq hfirst]
    rw [Tree.initTextsAll, Tree.initTextsAll, h.initTexts hts.1 hfirst hw hw' hu]
    rw [← List.append_assoc] at hw hw'
    rw [h.initTextsAll hts.2 hrest hw hw' hlength]

end

end

end Sema
