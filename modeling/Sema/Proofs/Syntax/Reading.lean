import Sema.Proofs.Syntax.Spelling
import Sema.Syntax.Reading

/-!
# Reading gives what a tree spells

Reading a tree gives what the tree spells, unless an integer literal is too long: one lemma for each
of the relations, up to `SpellsProgram.reading`.
-/

namespace Sema

/-! ## Places -/

namespace Tree

mutual

theorem start?_eq : ∀ t : Tree, t.start? = t.leaves.head?.map (·.start)
  | .leaf _ => rfl
  | .node _ children => startAll?_eq children

theorem startAll?_eq : ∀ ts : List Tree, startAll? ts = (leavesAll ts).head?.map (·.start)
  | [] => rfl
  | t :: ts => by
    rw [startAll?, start?_eq t, startAll?_eq ts, leavesAll, List.head?_append]
    cases t.leaves.head? <;> rfl

end

mutual

theorem stop?_eq : ∀ t : Tree, t.stop? = t.leaves.getLast?.map (·.stop)
  | .leaf _ => rfl
  | .node _ children => stopAll?_eq children

theorem stopAll?_eq : ∀ ts : List Tree, stopAll? ts = (leavesAll ts).getLast?.map (·.stop)
  | [] => rfl
  | t :: ts => by
    rw [stopAll?, stop?_eq t, stopAll?_eq ts, leavesAll, List.getLast?_append]
    cases (leavesAll ts).getLast? <;> rfl

end

end Tree

namespace Reading

@[simp] theorem ok_bind {α β : Type} (a : α) (f : α → Reading β) :
    (.ok a : Reading α) >>= f = f a := rfl

@[simp] theorem map_ok {α β : Type} (f : α → β) (a : α) :
    f <$> (.ok a : Reading α) = .ok (f a) := rfl

theorem place_eq (ts : List Tree) : place ts = placeOf (Tree.leavesAll ts) := by
  rw [place, Tree.startAll?_eq, Tree.stopAll?_eq, placeOf]
  cases (Tree.leavesAll ts).head? <;> cases (Tree.leavesAll ts).getLast? <;> rfl

theorem sourceText_eq (source : List Char) (t : Tree) :
    sourceText source t = sliceOf source t.leaves := by
  rw [sourceText, Tree.start?_eq, Tree.stop?_eq, sliceOf]
  cases t.leaves.head? <;> cases t.leaves.getLast? <;> rfl

/-! ## Readable trees -/

/-- A well-formed tree in which no integer literal is too long. -/
structure Readable (t : Tree) : Prop where
  wellFormed : t.WellFormed
  short : ∀ token ∈ t.leaves, token.kind = .intLit → token.text.length ≤ ReadError.maxDigits

theorem wellFormed_of_mem {ts : List Tree} (h : Tree.AllWellFormed ts) {t : Tree} (ht : t ∈ ts) :
    t.WellFormed := by
  induction ts with
  | nil => cases ht
  | cons u us ih =>
    rcases List.mem_cons.mp ht with rfl | ht
    · exact h.1
    · exact ih h.2 ht

theorem mem_leavesAll {ts : List Tree} {t : Tree} (ht : t ∈ ts) {token : Token}
    (h : token ∈ t.leaves) : token ∈ Tree.leavesAll ts := by
  induction ts with
  | nil => cases ht
  | cons u us ih =>
    rcases List.mem_cons.mp ht with rfl | ht
    · exact List.mem_append_left _ h
    · exact List.mem_append_right _ (ih ht)

theorem Readable.child {r : Rule} {children : List Tree} (h : Readable (.node r children))
    {t : Tree} (ht : t ∈ children) : Readable t :=
  ⟨wellFormed_of_mem h.wellFormed.2 ht, fun token hmem => h.short token (mem_leavesAll ht hmem)⟩

theorem integer_of_readable {token : Token} (h : Readable (.node .intLit [.leaf token])) :
    integer token.text = .ok (DecimalDigit.number token.text.toList) := by
  have hkind : token.kind = .intLit := by simpa [Tree.symbol, Rule.body] using h.wellFormed.1
  have hshort := h.short token (by simp [Tree.leaves, Tree.leavesAll]) hkind
  rw [← String.length_toList] at hshort
  rw [integer, if_pos hshort]

end Reading

/-! ## Literals -/

theorem Double.spells_iff_double {text : String} {bits : UInt64} :
    Double.Spells text.toList bits ↔ bits = Reading.double text :=
  Double.spells_iff

theorem inside_iff {cs ds : List Char} : Inside cs ds ↔ ds = (cs.drop 1).dropLast := by
  constructor
  · intro h
    cases h with
    | between => simp
    | short nothing =>
      rcases cs with _ | ⟨c, _ | ⟨d, cs⟩⟩
      · rfl
      · rfl
      · simp only [List.length_cons] at nothing
        omega
  · rintro rfl
    rcases cs with _ | ⟨c, cs⟩
    · exact .short (by simp)
    · rcases List.eq_nil_or_concat cs with rfl | ⟨cs, d, rfl⟩
      · exact .short (by simp)
      · have h : Inside (c :: cs ++ [d]) cs := .between
        simpa using h

theorem inside_iff_unquoted {text : String} {cs : List Char} :
    Inside text.toList cs ↔ String.ofList cs = Reading.unquoted text := by
  rw [inside_iff, Reading.unquoted]
  exact ⟨congrArg String.ofList, fun h => by simpa using congrArg String.toList h⟩

/-! ## Reading what is spelled -/

open Reading (Readable)

mutual

theorem SpellsExpr.reading : ∀ {t : Tree} {e : Expr}, SpellsExpr t e → Readable t →
    Reading.expr t = .ok e
  | _, _, .expr part, ht => part.reading (ht.child (by simp))
  | _, _, .assignNone part, ht => part.reading (ht.child (by simp))
  | _, _, .operand part, ht => part.reading (ht.child (by simp))
  | _, _, .unaryAtom part, ht => part.reading (ht.child (by simp))
  | _, _, .assignTo value, ht => by
    have hvalue := value.reading (ht.child (by simp))
    simp [Reading.expr, hvalue, Reading.place_eq, Tree.leavesAll, Tree.leaves]
  | _, _, .binary left right, ht => by
    have hleft := left.reading (ht.child (by simp))
    have hright := right.reading (ht.child (by simp))
    simp [Reading.expr, hleft, hright, Reading.place_eq, Tree.leavesAll, Tree.leaves]
  | _, _, .not operand, ht => by
    have hoperand := operand.reading (ht.child (by simp))
    simp [Reading.expr, hoperand, Reading.place_eq, Tree.leavesAll, Tree.leaves]
  | _, _, .int, ht => by
    simp [Reading.expr, Reading.integer_of_readable ht, Reading.place_eq, Tree.leavesAll,
      Tree.leaves]
  | _, _, .float nearest, ht => by
    simp [Reading.expr, Reading.place_eq, Tree.leavesAll, Tree.leaves,
      Double.spells_iff_double.mp nearest]
  | _, _, .string quoted, ht => by
    simp [Reading.expr, Reading.place_eq, Tree.leavesAll, Tree.leaves,
      inside_iff_unquoted.mp quoted]
  | _, _, .name, ht => by simp [Reading.expr, Reading.place_eq, Tree.leavesAll, Tree.leaves]
  | _, _, .paren value, ht => by
    have hvalue := value.reading (ht.child (by simp))
    simp [Reading.expr, hvalue, Reading.place_eq, Tree.leavesAll, Tree.leaves]
  | _, _, .call arguments, ht => by
    have harguments := arguments.reading (ht.child (by simp))
    simp [Reading.expr, harguments, Reading.place_eq, Tree.leavesAll, Tree.leaves]
  | _, _, .callEmpty, ht => by simp [Reading.expr, Reading.place_eq, Tree.leavesAll, Tree.leaves]

theorem SpellsArgs.reading : ∀ {t : Tree} {es : List Expr}, SpellsArgs t es → Readable t →
    Reading.args t = .ok es
  | _, _, .many first rest, ht => by
    have hfirst := first.reading (ht.child (by simp))
    have hrest := rest.reading (ht.child (by simp))
    simp [Reading.args, hfirst, hrest]
  | _, _, .one only, ht => by
    have honly := only.reading (ht.child (by simp))
    simp [Reading.args, honly]
  | _, _, .tailFirst first, ht => by
    have hfirst := first.reading (ht.child (by simp))
    simp [Reading.args, hfirst]
  | _, _, .tailMore more last, ht => by
    have hmore := more.reading (ht.child (by simp))
    have hlast := last.reading (ht.child (by simp))
    simp [Reading.args, hmore, hlast]

end

theorem Performs.reading {e : Expr} {s : Stmt} (h : Performs e s) : Reading.exprAsStmt e = s := by
  cases h with
  | assign => rfl
  | expr other =>
    cases e with
    | assign loc x value => exact absurd rfl (other loc x value)
    | _ => rfl

theorem SpellsType.reading {t : Tree} {type : String} (h : SpellsType t type) :
    Reading.typeName t = .ok type := by
  cases h
  rfl

theorem SpellsVar.reading {source : List Char} {t : Tree} {d : VarDecl}
    (h : SpellsVar source t d) (ht : Readable t) : Reading.varSpec source t = .ok d := by
  cases h with
  | plain typed =>
    simp [Reading.varSpec, Reading.varParts, typed.reading, Reading.place_eq, Tree.leavesAll,
      Tree.leaves]
  | constant typed =>
    simp [Reading.varSpec, Reading.varParts, typed.reading, Reading.place_eq, Tree.leavesAll,
      Tree.leaves]
  | plainInit typed value =>
    have hvalue := value.reading (ht.child (by simp))
    simp [Reading.varSpec, Reading.varParts, typed.reading, hvalue, Reading.place_eq,
      Reading.sourceText_eq, Tree.leavesAll, Tree.leaves]
  | constantInit typed value =>
    have hvalue := value.reading (ht.child (by simp))
    simp [Reading.varSpec, Reading.varParts, typed.reading, hvalue, Reading.place_eq,
      Reading.sourceText_eq, Tree.leavesAll, Tree.leaves]

theorem SpellsInit.reading {source : List Char} {t : Tree} {init : Option Stmt}
    (h : SpellsInit source t init) (ht : Readable t) : Reading.forInit source t = .ok init := by
  cases h with
  | var spec => simp [Reading.forInit, spec.reading (ht.child (by simp))]
  | expr value performs =>
    simp [Reading.forInit, value.reading (ht.child (by simp)), performs.reading]
  | empty => rfl

theorem SpellsCond.reading {t : Tree} {condition : Option Expr} (h : SpellsCond t condition)
    (ht : Readable t) : Reading.forCond t = .ok condition := by
  cases h with
  | expr value => simp [Reading.forCond, value.reading (ht.child (by simp))]
  | empty => rfl

theorem SpellsUpdate.reading {t : Tree} {update : Option Stmt} (h : SpellsUpdate t update)
    (ht : Readable t) : Reading.forUpdate t = .ok update := by
  cases h with
  | expr value performs =>
    simp [Reading.forUpdate, value.reading (ht.child (by simp)), performs.reading]
  | empty => rfl

theorem SpellsBlock.location_eq {source : List Char} {t : Tree} {b : Block}
    (h : SpellsBlock source t b) : b.location = placeOf t.leaves := by
  cases h <;> simp [Block.location, Tree.leavesAll, Tree.leaves]

theorem Reading.stmt_form {source : List Char} {form : StmtForm}
    (other : form ≠ .varDecl ∧ form ≠ .block) (t : Tree) :
    Reading.stmt source (.node (.stmt form) [t]) = Reading.stmt source t := by
  rw [Reading.stmt]
  · exact other.1
  · exact other.2

mutual

theorem SpellsStmt.reading {source : List Char} : ∀ {t : Tree} {s : Stmt},
    SpellsStmt source t s → Readable t → Reading.stmt source t = .ok s
  | _, _, .varDecl spec, ht => by
    have hspec := spec.reading ((ht.child List.mem_cons_self).child (by simp))
    simp [Reading.stmt, Reading.varDecl, hspec]
  | _, _, .block body, ht => by
    have hbody := body.reading (ht.child (by simp))
    simp [Reading.stmt, hbody, body.location_eq]
  | _, _, .form other part, ht => by
    rw [Reading.stmt_form other]
    exact part.reading (ht.child (by simp))
  | _, _, .expr value performs, ht => by
    have hvalue := value.reading (ht.child (by simp))
    simp [Reading.stmt, hvalue, performs.reading]
  | _, _, .ifThen condition thenBlock, ht => by
    have hcondition := condition.reading (ht.child (by simp))
    have hyes := thenBlock.reading (ht.child (by simp))
    simp [Reading.stmt, hcondition, hyes, Reading.place_eq, Tree.leavesAll, Tree.leaves]
  | _, _, .ifElse condition thenBlock elseBlock, ht => by
    have hcondition := condition.reading (ht.child (by simp))
    have hyes := thenBlock.reading (ht.child (by simp))
    have hno := elseBlock.reading (ht.child (by simp))
    simp [Reading.stmt, hcondition, hyes, hno, Reading.place_eq, Tree.leavesAll, Tree.leaves]
  | _, _, .ifElseIf condition thenBlock elseIf, ht => by
    have hcondition := condition.reading (ht.child (by simp))
    have hyes := thenBlock.reading (ht.child (by simp))
    have hno := elseIf.reading (ht.child (by simp))
    simp [Reading.stmt, hcondition, hyes, hno, Reading.place_eq, Tree.leavesAll, Tree.leaves]
  | _, _, .whileLoop condition loop, ht => by
    have hcondition := condition.reading (ht.child (by simp))
    have hloop := loop.reading (ht.child (by simp))
    simp [Reading.stmt, hcondition, hloop, Reading.place_eq, Tree.leavesAll, Tree.leaves]
  | _, _, .forLoop start test step loop, ht => by
    have hstart := start.reading (ht.child (by simp))
    have htest := test.reading (ht.child (by simp))
    have hstep := step.reading (ht.child (by simp))
    have hloop := loop.reading (ht.child (by simp))
    simp [Reading.stmt, hstart, htest, hstep, hloop, Reading.place_eq, Tree.leavesAll, Tree.leaves]
  | _, _, .returnValue value, ht => by
    have hvalue := value.reading (ht.child (by simp))
    simp [Reading.stmt, hvalue, Reading.place_eq, Tree.leavesAll, Tree.leaves]
  | _, _, .returnBare, _ => by simp [Reading.stmt, Reading.place_eq, Tree.leavesAll, Tree.leaves]

theorem SpellsBlock.reading {source : List Char} : ∀ {t : Tree} {b : Block},
    SpellsBlock source t b → Readable t → Reading.block source t = .ok b
  | _, _, .full body, ht => by
    have hbody := body.reading (ht.child (by simp))
    simp [Reading.block, hbody, Reading.place_eq, Tree.leavesAll, Tree.leaves]
  | _, _, .empty, _ => by simp [Reading.block, Reading.place_eq, Tree.leavesAll, Tree.leaves]

theorem SpellsStmts.reading {source : List Char} : ∀ {t : Tree} {ss : List Stmt},
    SpellsStmts source t ss → Readable t → Reading.stmts source t = .ok ss
  | _, _, .first only, ht => by
    have honly := only.reading (ht.child (by simp))
    simp [Reading.stmts, honly]
  | _, _, .more before last, ht => by
    have hbefore := before.reading (ht.child (by simp))
    have hlast := last.reading (ht.child (by simp))
    simp [Reading.stmts, hbefore, hlast]

end

theorem SpellsParam.reading {t : Tree} {p : Param} (h : SpellsParam t p) :
    Reading.param t = .ok p := by
  cases h with
  | mk typed => simp [Reading.param, typed.reading, Reading.place_eq, Tree.leavesAll, Tree.leaves]

theorem SpellsParams.reading {t : Tree} {ps : List Param} (h : SpellsParams t ps) :
    Reading.params t = .ok ps := by
  induction h with
  | many first _ ih => simp [Reading.params, first.reading, ih]
  | one only => simp [Reading.params, only.reading]
  | tailFirst first => simp [Reading.params, first.reading]
  | tailMore _ last ih => simp [Reading.params, last.reading, ih]

theorem SpellsFunction.reading {source : List Char} {t : Tree} {f : FunctionDef}
    (h : SpellsFunction source t f) (ht : Readable t) : Reading.funcDef source t = .ok f := by
  cases h with
  | params type parameters block =>
    have hblock := block.reading (ht.child (by simp))
    cases type with
    | typed typed =>
      simp [Reading.funcDef, Reading.funcParts, typed.reading, parameters.reading, hblock,
        Reading.place_eq, Tree.leavesAll, Tree.leaves]
    | void =>
      simp [Reading.funcDef, Reading.funcParts, parameters.reading, hblock, Reading.place_eq,
        Tree.leavesAll, Tree.leaves]
    | absent =>
      simp [Reading.funcDef, Reading.funcParts, parameters.reading, hblock, Reading.place_eq,
        Tree.leavesAll, Tree.leaves]
  | noParams type block =>
    have hblock := block.reading (ht.child (by simp))
    cases type with
    | typed typed =>
      simp [Reading.funcDef, Reading.funcParts, typed.reading, hblock, Reading.place_eq,
        Tree.leavesAll, Tree.leaves]
    | void =>
      simp [Reading.funcDef, Reading.funcParts, hblock, Reading.place_eq, Tree.leavesAll,
        Tree.leaves]
    | absent =>
      simp [Reading.funcDef, Reading.funcParts, hblock, Reading.place_eq, Tree.leavesAll,
        Tree.leaves]

theorem SpellsDecl.reading {source : List Char} {t : Tree} {d : Decl}
    (h : SpellsDecl source t d) (ht : Readable t) : Reading.decl source t = .ok d := by
  cases h with
  | var spec =>
    have hspec := spec.reading ((ht.child List.mem_cons_self).child (by simp))
    simp [Reading.decl, Reading.varDecl, hspec]
  | func function => simp [Reading.decl, function.reading (ht.child (by simp))]

theorem SpellsDecls.reading {source : List Char} {t : Tree} {ds : List Decl}
    (h : SpellsDecls source t ds) (ht : Readable t) : Reading.decls source t = .ok ds := by
  induction h with
  | first only => simp [Reading.decls, only.reading (ht.child (by simp))]
  | more _ last ih =>
    simp [Reading.decls, last.reading (ht.child (by simp)), ih (ht.child (by simp))]

/-- Reading a tree gives the program that the tree spells. -/
theorem SpellsProgram.reading {source : List Char} {t : Tree} {p : Program}
    (h : SpellsProgram source t p) (ht : Readable t) : Reading.program source t = .ok p := by
  cases h with
  | decls declarations => simp [Reading.program, declarations.reading (ht.child (by simp))]
  | empty => rfl

end Sema
