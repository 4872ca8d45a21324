import Sema.Proofs.Grammar.Unambiguous
import Sema.Proofs.Syntax.Unique

/-!
# How operators and branches group

What tokens spell as a phrase of some category (`SpelledExpr`, `SpelledStmt`). As the grammar is
unambiguous they spell one thing at most, so it is enough to give a derivation to know how they
group: tighter operators first, operators of one level from the left, `!` before any of them,
assignments from the right, and each `else` with the nearest `if` (`grouping`).
-/

namespace Sema

def Level.tightness : Level → Nat
  | or => 0
  | and => 1
  | equality => 2
  | relation => 3
  | sum => 4
  | product => 5

/-! ## What tokens spell -/

/-- The tokens spell an expression, as a phrase of the category. -/
def SpelledExpr (c : Category) (w : List Token) (e : Expr) : Prop :=
  ∃ t : Tree, t.Derives (.phrase c) w ∧ SpellsExpr t e

def SpelledBlock (source : List Char) (w : List Token) (b : Block) : Prop :=
  ∃ t : Tree, t.Derives (.phrase .block) w ∧ SpellsBlock source t b

/-- The tokens spell a statement, as a phrase of the category. -/
def SpelledStmt (source : List Char) (c : Category) (w : List Token) (s : Stmt) : Prop :=
  ∃ t : Tree, t.Derives (.phrase c) w ∧ SpellsStmt source t s

theorem SpelledExpr.iff_eq {c : Category} {w : List Token} {e : Expr} (h : SpelledExpr c w e)
    (e' : Expr) : SpelledExpr c w e' ↔ e' = e := by
  refine ⟨fun ⟨t', ht', he'⟩ => ?_, fun he => he ▸ h⟩
  obtain ⟨t, ht, he⟩ := h
  cases c.unambiguous w t t' ht ht'
  exact he'.unique he

theorem SpelledStmt.iff_eq {source : List Char} {c : Category} {w : List Token} {s : Stmt}
    (h : SpelledStmt source c w s) (s' : Stmt) : SpelledStmt source c w s' ↔ s' = s := by
  refine ⟨fun ⟨t', ht', hs'⟩ => ?_, fun hs => hs ▸ h⟩
  obtain ⟨t, ht, hs⟩ := h
  cases c.unambiguous w t t' ht ht'
  exact hs'.unique hs

/-! ## Levels -/

theorem SpelledExpr.of_operand {l : Level} {w : List Token} {e : Expr}
    (h : SpelledExpr l.operand w e) : SpelledExpr l.category w e := by
  obtain ⟨t, ⟨hwf, hsymbol, hleaves⟩, he⟩ := h
  refine ⟨.node (.operand l) [t], ⟨⟨?_, hwf, trivial⟩, rfl, ?_⟩, .operand he⟩
  · simp [hsymbol, Rule.body]
  · simp [Tree.leaves, Tree.leavesAll, hleaves]

theorem SpelledExpr.loosen {w : List Token} {e : Expr} : ∀ {l m : Level},
    m.tightness ≤ l.tightness → SpelledExpr l.category w e → SpelledExpr m.category w e := by
  have hand : SpelledExpr Level.and.category w e → SpelledExpr Level.or.category w e :=
    fun h => of_operand (l := .or) h
  have heq : SpelledExpr Level.equality.category w e → SpelledExpr Level.and.category w e :=
    fun h => of_operand (l := .and) h
  have hrel : SpelledExpr Level.relation.category w e → SpelledExpr Level.equality.category w e :=
    fun h => of_operand (l := .equality) h
  have hsum : SpelledExpr Level.sum.category w e → SpelledExpr Level.relation.category w e :=
    fun h => of_operand (l := .relation) h
  have hproduct : SpelledExpr Level.product.category w e → SpelledExpr Level.sum.category w e :=
    fun h => of_operand (l := .sum) h
  intro l m hle h
  cases l <;> cases m <;> simp_all [Level.tightness]

theorem SpelledExpr.as_operand {l m : Level} {w : List Token} {e : Expr}
    (hlt : m.tightness < l.tightness) (h : SpelledExpr l.category w e) :
    SpelledExpr m.operand w e := by
  cases m with
  | or => exact h.loosen (m := .and) hlt
  | and => exact h.loosen (m := .equality) hlt
  | equality => exact h.loosen (m := .relation) hlt
  | relation => exact h.loosen (m := .sum) hlt
  | sum => exact h.loosen (m := .product) hlt
  | product => cases l <;> simp [Level.tightness] at hlt

theorem SpelledExpr.of_level {l : Level} {w : List Token} {e : Expr}
    (h : SpelledExpr l.category w e) : SpelledExpr .expr w e := by
  obtain ⟨t, ⟨hwf, hsymbol, hleaves⟩, he⟩ := h.loosen (m := .or) (Nat.zero_le _)
  refine ⟨.node .expr [.node .assignNone [t]], ⟨⟨rfl, ⟨?_, hwf, trivial⟩, trivial⟩, rfl, ?_⟩,
    .expr (.assignNone he)⟩
  · simp [hsymbol, Rule.body, Level.category]
  · simp [Tree.leaves, Tree.leavesAll, hleaves]

/-! ## Operators -/

theorem SpelledExpr.binary {o : BinaryOp} {s : Token} {u v : List Token} {a b : Expr}
    (hs : s.kind = o.terminal) (ha : SpelledExpr o.level.category u a)
    (hb : SpelledExpr o.level.operand v b) :
    SpelledExpr o.level.category (u ++ s :: v) (.binary (placeOf (u ++ s :: v)) o.text a b) := by
  obtain ⟨l, ⟨hl, hlsymbol, rfl⟩, hla⟩ := ha
  obtain ⟨r, ⟨hr, hrsymbol, rfl⟩, hrb⟩ := hb
  refine ⟨.node (.binary o) [l, .leaf s, r], ⟨⟨?_, hl, trivial, hr, trivial⟩, rfl, ?_⟩,
    .binary hla hrb⟩
  · simp [hlsymbol, hrsymbol, hs, Rule.body]
  · simp [Tree.leaves, Tree.leavesAll]

theorem SpelledExpr.not {l : Level} {bang : Token} {u : List Token} {a : Expr}
    (hbang : bang.kind = .bang) (ha : SpelledExpr .unary u a) :
    SpelledExpr l.category (bang :: u) (.not (placeOf (bang :: u)) a) := by
  obtain ⟨t, ⟨ht, hsymbol, rfl⟩, hta⟩ := ha
  have hunary : SpelledExpr Level.product.operand (bang :: t.leaves)
      (.not (placeOf (bang :: t.leaves)) a) := by
    refine ⟨.node .unaryNot [.leaf bang, t], ⟨⟨?_, trivial, ht, trivial⟩, rfl, ?_⟩, .not hta⟩
    · simp [hsymbol, hbang, Rule.body]
    · simp [Tree.leaves, Tree.leavesAll]
  exact hunary.of_operand.loosen (by cases l <;> decide)

theorem SpelledExpr.of_expr {w : List Token} {e : Expr} (h : SpelledExpr .expr w e) :
    SpelledExpr .assign w e := by
  obtain ⟨t, ⟨hwf, hsymbol, hleaves⟩, he⟩ := h
  cases t with
  | leaf token => cases hsymbol
  | node r ts =>
    have hr : r = .expr := by
      have hmem := r.mem_rules
      rw [show r.category = .expr from GrammarSymbol.phrase.inj hsymbol] at hmem
      simpa [Category.rules] using hmem
    subst hr
    cases he with
    | @expr u _ part =>
      refine ⟨u, ⟨hwf.2.1, by simpa [Rule.body] using hwf.1, ?_⟩, part⟩
      simpa [Tree.leaves, Tree.leavesAll] using hleaves

theorem SpelledExpr.assign {x equal : Token} {v : List Token} {e : Expr} (hx : x.kind = .name)
    (hequal : equal.kind = .equal) (he : SpelledExpr .expr v e) :
    SpelledExpr .expr (x :: equal :: v) (.assign (placeOf (x :: equal :: v)) x.text (some e)) := by
  obtain ⟨t, ⟨ht, hsymbol, rfl⟩, hte⟩ := he.of_expr
  refine ⟨.node .expr [.node .assignTo [.leaf x, .leaf equal, t]],
    ⟨⟨rfl, ⟨?_, trivial, trivial, ht, trivial⟩, trivial⟩, rfl, ?_⟩, .expr (.assignTo hte)⟩
  · simp [hsymbol, hx, hequal, Rule.body]
  · simp [Tree.leaves, Tree.leavesAll]

/-! ## Branches -/

theorem SpelledStmt.elseIf {source : List Char} {kw lpar rpar elseKw : Token}
    {u v w : List Token} {e : Expr} {yes : Block} {no : Stmt} (hkw : kw.kind = .ifKw)
    (hlpar : lpar.kind = .lpar) (hrpar : rpar.kind = .rpar) (helse : elseKw.kind = .elseKw)
    (he : SpelledExpr .expr u e) (hyes : SpelledBlock source v yes)
    (hno : SpelledStmt source .ifStmt w no) :
    SpelledStmt source .ifStmt (kw :: lpar :: u ++ rpar :: v ++ elseKw :: w)
      (.ifThen (placeOf (kw :: lpar :: u ++ rpar :: v ++ elseKw :: w)) e yes
        (some (.mk (placeOf w) [no]))) := by
  obtain ⟨c, ⟨hc, hcsymbol, rfl⟩, hce⟩ := he
  obtain ⟨y, ⟨hy, hysymbol, rfl⟩, hyy⟩ := hyes
  obtain ⟨n, ⟨hn, hnsymbol, rfl⟩, hnn⟩ := hno
  refine ⟨.node .ifElseIf [.leaf kw, .leaf lpar, c, .leaf rpar, y, .leaf elseKw, n],
    ⟨⟨?_, trivial, trivial, hc, trivial, hy, trivial, hn, trivial⟩, rfl, ?_⟩,
    .ifElseIf hce hyy hnn⟩
  · simp [hcsymbol, hysymbol, hnsymbol, hkw, hlpar, hrpar, helse, Rule.body]
  · simp [Tree.leaves, Tree.leavesAll]

/-! ## How all of this groups -/

/-- How operators and branches group, whatever stands around them. -/
structure Grouping (source : List Char) : Prop where
  /-- Of two operators, the second is the tighter one: it groups first. -/
  tighter : ∀ {o o' : BinaryOp} {s s' : Token} {u v w : List Token} {a b c : Expr},
    o.level.tightness < o'.level.tightness → s.kind = o.terminal → s'.kind = o'.terminal →
    SpelledExpr o.level.category u a → SpelledExpr o'.level.category v b →
    SpelledExpr o'.level.operand w c →
    ∀ e, SpelledExpr .expr (u ++ s :: (v ++ s' :: w)) e ↔
      e = .binary (placeOf (u ++ s :: (v ++ s' :: w))) o.text a
        (.binary (placeOf (v ++ s' :: w)) o'.text b c)
  /-- Of two operators, the second is not the tighter one: the first groups first. -/
  left : ∀ {o o' : BinaryOp} {s s' : Token} {u v w : List Token} {a b c : Expr},
    o'.level.tightness ≤ o.level.tightness → s.kind = o.terminal → s'.kind = o'.terminal →
    SpelledExpr o.level.category u a → SpelledExpr o.level.operand v b →
    SpelledExpr o'.level.operand w c →
    ∀ e, SpelledExpr .expr ((u ++ s :: v) ++ s' :: w) e ↔
      e = .binary (placeOf ((u ++ s :: v) ++ s' :: w)) o'.text
        (.binary (placeOf (u ++ s :: v)) o.text a b) c
  /-- A negation groups before every operator. -/
  not : ∀ {o : BinaryOp} {bang s : Token} {u v : List Token} {a b : Expr},
    bang.kind = .bang → s.kind = o.terminal → SpelledExpr .unary u a →
    SpelledExpr o.level.operand v b →
    ∀ e, SpelledExpr .expr (bang :: u ++ s :: v) e ↔
      e = .binary (placeOf (bang :: u ++ s :: v)) o.text (.not (placeOf (bang :: u)) a) b
  /-- An assignment takes all that follows it, other assignments too. -/
  assign : ∀ {x equal : Token} {v : List Token} {a : Expr}, x.kind = .name →
    equal.kind = .equal → SpelledExpr .expr v a →
    ∀ e, SpelledExpr .expr (x :: equal :: v) e ↔
      e = .assign (placeOf (x :: equal :: v)) x.text (some a)
  /-- An `if` after an `else` takes all that follows, each `else` of it too. -/
  elseIf : ∀ {kw lpar rpar elseKw : Token} {u v w : List Token} {a : Expr} {yes : Block}
    {no : Stmt}, kw.kind = .ifKw → lpar.kind = .lpar → rpar.kind = .rpar →
    elseKw.kind = .elseKw → SpelledExpr .expr u a → SpelledBlock source v yes →
    SpelledStmt source .ifStmt w no →
    ∀ s, SpelledStmt source .ifStmt (kw :: lpar :: u ++ rpar :: v ++ elseKw :: w) s ↔
      s = .ifThen (placeOf (kw :: lpar :: u ++ rpar :: v ++ elseKw :: w)) a yes
        (some (.mk (placeOf w) [no]))

theorem grouping (source : List Char) : Grouping source where
  tighter hlt hs hs' ha hb hc :=
    (SpelledExpr.binary hs ha ((SpelledExpr.binary hs' hb hc).as_operand hlt)).of_level.iff_eq
  left hle hs hs' ha hb hc :=
    (SpelledExpr.binary hs' ((SpelledExpr.binary hs ha hb).loosen hle) hc).of_level.iff_eq
  not hbang hs ha hb := (SpelledExpr.binary hs (SpelledExpr.not hbang ha) hb).of_level.iff_eq
  assign hx hequal ha := (SpelledExpr.assign hx hequal ha).iff_eq
  elseIf hkw hlpar hrpar helse ha hyes hno :=
    (SpelledStmt.elseIf hkw hlpar hrpar helse ha hyes hno).iff_eq

end Sema
