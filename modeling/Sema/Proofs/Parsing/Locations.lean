import Sema.Proofs.Parsing.Edits
import Sema.Proofs.Parsing.Programs
import Sema.Proofs.Syntax.Nodes

/-!
# The places of nodes

In the program of a source that follows the grammar, every node has the line and column where the
first token of its phrase starts and the line where the last one stops, and the text of an
initializer is what the source has from its first token to its last (`locations_exact`). What a
phrase starts and ends with depends on the kind of the node (`Node.Delimited`): blocks, functions
and control structures reach to a closing brace and a `return` to its semicolon, but there is no
semicolon at the end of a variable, an assignment or an expression.
-/

namespace Sema

variable {source : List Char}

/-! ## Texts of tokens -/

/-- The tokens `w` go from `first` to `last`, and `cs` is the part of the source from the start of
the one to the end of the other. -/
structure Covers (source : List Char) (w : List Token) (first last : Token) (cs : List Char) :
    Prop where
  head : w.head? = some first
  getLast : w.getLast? = some last
  text : ∃ before after, source = before ++ (cs ++ after) ∧
    first.start = Position.start.advance before ∧ last.stop = first.start.advance cs

theorem exists_pieces_of_tokensOf {ps : List Piece} {u v : List Token} {t : Token}
    (h : tokensOf ps = u ++ t :: v) : ∃ qs rs, ps = qs ++ .token t :: rs ∧ tokensOf rs = v := by
  obtain ⟨qs, rest, rfl, -, hrest⟩ := List.filterMap_eq_append_iff.mp h
  obtain ⟨between, rs, rfl, -, hrs⟩ := exists_first_token hrest
  exact ⟨qs ++ between, rs, by simp, hrs⟩

theorem exists_covers {w : List Token} (hw : w <:+: tokensOf (pieces source)) (hne : w ≠ []) :
    ∃ first last cs, Covers source w first last cs := by
  obtain ⟨u, v, hw⟩ := hw
  obtain ⟨first, rest, hfirst⟩ := List.exists_cons_of_ne_nil hne
  obtain ⟨init, last, hlast⟩ : ∃ init last, w = init ++ [last] :=
    ⟨_, _, (List.dropLast_append_getLast hne).symm⟩
  have htokens : tokensOf (pieces source) = u ++ first :: (rest ++ v) := by
    rw [← hw, hfirst]
    simp
  obtain ⟨qs, rs, hpieces, hrs⟩ := exists_pieces_of_tokensOf htokens
  have hfrom : tokensOf (.token first :: rs) = init ++ last :: v := by
    rw [tokensOf_token, hrs, ← List.cons_append, ← hfirst, hlast]
    simp
  obtain ⟨ms, ns, hms, -⟩ := exists_pieces_of_tokensOf hfrom
  obtain ⟨-, -, hstart, -⟩ := exists_text_around hpieces
  rw [hms, ← List.append_assoc] at hpieces
  obtain ⟨after, hsource, hstart', hstop, -⟩ := exists_text_around hpieces
  rw [List.flatMap_append] at hsource hstart'
  refine ⟨first, last, ms.flatMap Piece.text ++ last.text.toList, ?_, ?_, _, after, ?_, hstart, ?_⟩
  · rw [hfirst, List.head?_cons]
  · rw [hlast, List.getLast?_concat]
  · simpa using hsource
  · rw [hstop, hstart', hstart]
    simp only [Position.advance_append]

theorem Covers.place_eq {w : List Token} {first last : Token} {cs : List Char}
    (h : Covers source w first last cs) :
    placeOf w = ⟨first.start.line, first.start.column, some last.stop.line⟩ := by
  rw [placeOf, h.head, h.getLast]

theorem Covers.sliceOf_eq {w : List Token} {first last : Token} {cs : List Char}
    (h : Covers source w first last cs) : sliceOf source w = String.ofList cs := by
  obtain ⟨before, after, hsource, hfirst, hlast⟩ := h.text
  have hstart : first.start.offset = before.length := by
    rw [hfirst, Position.offset_advance]
    exact Nat.zero_add _
  have hstop : last.stop.offset = before.length + cs.length := by
    rw [hlast, Position.offset_advance, hstart]
  simp [sliceOf, h.head, h.getLast, hstart, hstop, hsource]

/-! ## Ends of phrases -/

def StartsWith (kind : Terminal) (w : List Token) : Prop :=
  w.head?.map Token.kind = some kind

def EndsWith (kind : Terminal) (w : List Token) : Prop :=
  w.getLast?.map Token.kind = some kind

/-- What the phrase of a node starts and ends with, where the kind of the node says so, and what
else it holds. -/
def Node.Delimited : Node → List Token → Prop
  | .function _, w => EndsWith .rbrace w
  | .block _, w => (StartsWith .lbrace w ∨ StartsWith .ifKw w) ∧ EndsWith .rbrace w
  | .stmt (.block _ _), w => StartsWith .lbrace w ∧ EndsWith .rbrace w
  | .stmt (.ifThen _ _ _ _), w => StartsWith .ifKw w ∧ EndsWith .rbrace w
  | .stmt (.whileLoop _ _ _), w => StartsWith .whileKw w ∧ EndsWith .rbrace w
  | .stmt (.forLoop _ _ _ _ _), w => StartsWith .forKw w ∧ EndsWith .rbrace w
  | .stmt (.result _ _), w => StartsWith .returnKw w ∧ EndsWith .semicolon w
  | _, w => ∀ token ∈ w, token.kind.isBoundary = false

theorem Tree.startsWith {t : Tree} (ht : t.WellFormed) {c : Category} {kind : Terminal}
    (hsymbol : t.symbol = .phrase c) (hc : c.isEmptiable = false) (hfirst : c.first = [kind]) :
    StartsWith kind t.leaves := by
  obtain ⟨token, rest, hleaves⟩ := List.exists_cons_of_ne_nil (t.leaves_ne_nil ht hsymbol hc)
  have hmem := (leaves_start ht).2 token rest hleaves
  rw [hsymbol] at hmem
  rw [GrammarSymbol.first, hfirst, List.mem_singleton] at hmem
  simp [StartsWith, hleaves, hmem]

/-- The token with which every phrase of a category ends. -/
def Category.closing? : Category → Option Terminal
  | .funcDef | .block | .ifStmt | .whileStmt | .forStmt => some .rbrace
  | .returnStmt => some .semicolon
  | _ => none

theorem Rule.exists_closing {r : Rule} {kind : Terminal} (h : r.category.closing? = some kind) :
    ∃ xs x, r.body = xs ++ [x] ∧
      (x = .terminal kind ∨ ∃ c, x = .phrase c ∧ c.closing? = some kind) := by
  have hall := Rule.of_all_rules (p := fun r => r.category.closing?.all fun kind =>
    r.body.getLast?.any (GrammarSymbol.test (· == kind) (·.closing? == some kind)))
    (by decide +kernel) r
  rw [h, Option.all_some, Option.any_eq_true] at hall
  obtain ⟨x, hx, hclosing⟩ := hall
  obtain ⟨xs, hxs⟩ := List.getLast?_eq_some_iff.mp hx
  refine ⟨xs, x, hxs, ?_⟩
  cases x with
  | terminal kind' => exact .inl (by simpa [GrammarSymbol.test] using hclosing)
  | phrase c => exact .inr ⟨c, rfl, by simpa [GrammarSymbol.test] using hclosing⟩

theorem Tree.endsWith {kind : Terminal} (t : Tree) (ht : t.WellFormed) {c : Category}
    (hsymbol : t.symbol = .phrase c) (hclosing : c.closing? = some kind) :
    EndsWith kind t.leaves := by
  induction t using Tree.ind generalizing c with
  | leaf token => cases hsymbol
  | node r ts ih =>
    obtain rfl : r.category = c := GrammarSymbol.phrase.inj hsymbol
    obtain ⟨xs, x, hbody, hx⟩ := Rule.exists_closing hclosing
    obtain ⟨us, last, rfl, hlast⟩ := exists_append_of_map_eq (ht.1.trans hbody)
    have hends : EndsWith kind last.leaves := by
      rcases hx with rfl | ⟨c, rfl, hc⟩
      · cases last with
        | leaf token => exact congrArg some (GrammarSymbol.terminal.inj hlast)
        | node r' ts' => cases hlast
      · exact ih last (by simp) (Tree.allWellFormed_append_cons ht.2).2.1 hlast hc
    obtain ⟨token, htoken, hkind⟩ := Option.map_eq_some_iff.mp hends
    simp [EndsWith, leaves, leavesAll_append, leavesAll, htoken, hkind]

theorem Rule.Makes.delimited {r : Rule} {n : Node} (h : r.Makes n) {ts : List Tree}
    (ht : (Tree.node r ts).WellFormed) : n.Delimited (Tree.node r ts).leaves := by
  have hblock {c : Category} {kind kind' : Terminal} (hc : r.category = c)
      (hempty : c.isEmptiable = false) (hfirst : c.first = [kind])
      (hclosing : c.closing? = some kind') :
      StartsWith kind (Tree.node r ts).leaves ∧ EndsWith kind' (Tree.node r ts).leaves :=
    have hsymbol := congrArg GrammarSymbol.phrase hc
    ⟨Tree.startsWith ht hsymbol hempty hfirst, Tree.endsWith _ ht hsymbol hclosing⟩
  cases h with
  | function => exact Tree.endsWith _ ht rfl rfl
  | block hc => exact (hblock hc rfl rfl rfl).imp_left .inl
  | elseIf hc => exact (hblock hc rfl rfl rfl).imp_left .inr
  | blockStmt hc | ifThen hc => exact hblock hc rfl rfl rfl
  | whileLoop | forLoop | returnValue | returnBare => exact hblock rfl rfl rfl rfl
  | var => exact isBoundary_of_mem_leaves (c := .varSpec) (by decide) _ ht rfl
  | @binary loc op left right =>
    have hop : op.level.category ∈ Category.endless := by cases op <;> decide
    exact isBoundary_of_mem_leaves hop _ ht rfl
  | _ => exact isBoundary_of_mem_leaves (by decide) _ ht rfl

/-! ## Places -/

def Tree.initializer? : Tree → Option Tree
  | .node (.varSpec _ true) ts => ts.getLast?
  | _ => none

/-- The text of the initializer of `d` is what the source has from the first token to the last one
of the initializer in the phrase `t`, or `null` if there is none. -/
def VarDecl.HasTextIn (source : List Char) (t : Tree) (d : VarDecl) : Prop :=
  (d.value = none ∧ t.initializer? = none ∧ d.initText = "null") ∨
  (d.value.isSome ∧ ∃ value first last cs, t.initializer? = some value ∧
    Covers source value.leaves first last cs ∧ d.initText = String.ofList cs)

/-- The phrase `t` is the text of the node `n` in the source: the node starts where the first token
of the phrase starts and ends in the line where the last one stops. -/
structure Tree.Locates (source : List Char) (t : Tree) (n : Node) : Prop where
  rule : ∃ r ts, t = .node r ts ∧ r.Makes n
  place : ∃ first last cs, Covers source t.leaves first last cs ∧
    n.location = ⟨first.start.line, first.start.column, some last.stop.line⟩
  delimited : n.Delimited t.leaves
  initText : ∀ d, n = .var d → d.HasTextIn source t

theorem Rule.Makes.isEmptiable_eq {r : Rule} {n : Node} (h : r.Makes n) :
    r.category.isEmptiable = false := by
  cases h with
  | block hc | elseIf hc | blockStmt hc | ifThen hc =>
    rw [hc]
    rfl
  | @binary loc op left right => cases op <;> rfl
  | _ => rfl

theorem Tree.Makes.hasTextIn {t : Tree} {d : VarDecl} (h : t.Makes source (.var d))
    (ht : t.WellFormed) (hleaves : t.leaves <:+: tokensOf (pieces source)) :
    d.HasTextIn source t := by
  obtain ⟨r, ts, rfl, hrule⟩ := h.rule
  have hinit := h.initText d rfl
  cases hrule with
  | @var isConst hasValue _ _ hsome =>
    cases hasValue with
    | false =>
      exact .inl ⟨by simpa using hsome, rfl, List.head_eq_of_cons_eq hinit⟩
    | true =>
      obtain ⟨us, value, rfl, hvalue, hsymbol⟩ := Tree.exists_initializer ht
      have hpart : value.leaves <:+: (Tree.node (.varSpec isConst true) (us ++ [value])).leaves :=
        ⟨leavesAll us, [], by simp [leaves, leavesAll, leavesAll_append]⟩
      obtain ⟨first, last, cs, hcovers⟩ :=
        exists_covers (hpart.trans hleaves) (leaves_ne_nil hvalue hsymbol rfl)
      refine .inr ⟨hsome, value, first, last, cs, List.getLast?_concat, hcovers, ?_⟩
      rw [← hcovers.sliceOf_eq]
      simpa using hinit

theorem Tree.Makes.locates {t : Tree} {n : Node} (h : t.Makes source n) (ht : t.WellFormed)
    (hleaves : t.leaves <:+: tokensOf (pieces source)) : t.Locates source n := by
  obtain ⟨r, ts, rfl, hrule⟩ := h.rule
  have hne := Tree.leaves_ne_nil ht rfl hrule.isEmptiable_eq
  obtain ⟨first, last, cs, hcovers⟩ := exists_covers hleaves hne
  have hplace := h.place.trans hcovers.place_eq
  refine ⟨h.rule, ⟨first, last, cs, hcovers, hplace⟩, hrule.delimited ht, ?_⟩
  rintro d rfl
  exact h.hasTextIn ht hleaves

/-- In the program of a source, each node stands where its phrase does: the nodes and the phrases of
the derivation go together one by one. -/
theorem locations_exact {p : Program} (h : Program.ofSource source = .ok p) :
    ∃ tree : Tree, tree.Derives (.phrase .program) (tokensOf (pieces source)) ∧
      List.Forall₂ (Tree.Locates source) tree.phrases p.nodes := by
  obtain ⟨tree, hstrict, hread⟩ := ofPieces_eq_ok.mp h
  obtain ⟨-, htree⟩ := Parsing.strict_eq_ok_iff.mp hstrict
  have hmakes := (spells_of_reading htree hread).phrases htree.wellFormed
  have hparts : ∀ t ∈ tree.phrases, t.WellFormed ∧ t.leaves <:+: tokensOf (pieces source) := by
    intro t ht
    obtain ⟨path, u, v, hoccurs⟩ := Tree.exists_occurs ht
    refine ⟨hoccurs.wellFormed htree.wellFormed, u, v, ?_⟩
    rw [← htree.leaves, hoccurs.leaves, List.append_assoc]
  refine ⟨tree, htree, ?_⟩
  exact ((List.forall₂_and_left _ _).mpr ⟨hparts, hmakes⟩).imp
    fun t n ⟨⟨ht, hleaves⟩, hmakes⟩ => hmakes.locates ht hleaves

/-- A function with an `else if` and an initializer on two lines. -/
def branches : List Char :=
  "int f()\x7b\nif(a)\x7b\x7d\nelse if(b)\x7bint x=\n1;\x7d\x7d".toList

/-- The places of its nodes. The `if` behind `else` has the place of the block around it. -/
def branchPlaces : List Location :=
  [⟨1, 1, some 4⟩, ⟨1, 8, some 4⟩, ⟨2, 1, some 4⟩, ⟨2, 4, some 2⟩, ⟨2, 6, some 2⟩, ⟨3, 6, some 4⟩,
    ⟨3, 6, some 4⟩, ⟨3, 9, some 3⟩, ⟨3, 11, some 4⟩, ⟨3, 12, some 4⟩, ⟨4, 1, some 4⟩]

theorem branches_locations : ∃ (p : Program) (tree : Tree), Program.ofSource branches = .ok p ∧
    tree.Derives (.phrase .program) (tokensOf (pieces branches)) ∧
    List.Forall₂ (Tree.Locates branches) tree.phrases p.nodes ∧
    p.nodes.map Node.location = branchPlaces := by
  have hnodes : ((Program.ofSource branches).toOption.map fun p => p.nodes.map Node.location) =
      some branchPlaces := by decide +kernel
  cases hp : Program.ofSource branches with
  | error e => simp [hp, Except.toOption] at hnodes
  | ok p =>
    rw [hp] at hnodes
    obtain ⟨tree, htree, hlocates⟩ := locations_exact hp
    exact ⟨p, tree, rfl, htree, hlocates, Option.some.inj hnodes⟩

end Sema
