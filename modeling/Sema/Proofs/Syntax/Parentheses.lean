import Mathlib.Algebra.GroupWithZero.Nat
import Sema.Proofs.Syntax.InitTexts

/-!
# Closing parentheses

How many closing parentheses there are among the tokens of a program can be told from the program
(`SpellsProgram.count_parens`): one for each function, each control structure, each call and each
expression in parentheses. Places do not matter for it, so programs that are the same up to places
have as many.
-/

namespace Sema

/-! ## Programs -/

mutual

/-- The number of parentheses that are closed in an expression. -/
@[simp] def Expr.parens : Expr → Nat
  | .paren _ value => value.parens + 1
  | .not _ operand => operand.parens
  | .binary _ _ left right => left.parens + right.parens
  | .assign _ _ value => Expr.optionParens value
  | .call _ _ args => Expr.allParens args + 1
  | _ => 0

@[simp] def Expr.optionParens : Option Expr → Nat
  | none => 0
  | some e => e.parens

@[simp] def Expr.allParens : List Expr → Nat
  | [] => 0
  | e :: es => e.parens + Expr.allParens es

end

/-- The number of parentheses that are closed in items: each control structure has a pair. -/
@[simp] def Item.parens : List Item → Nat
  | [] => 0
  | .control _ :: items => parens items + 1
  | .expr e :: items => e.parens + parens items
  | _ :: items => parens items

def Decl.parens : Decl → Nat
  | .func f => Item.parens f.items + 1
  | .var d => Expr.optionParens d.value
  | .unsupported => 0

def Program.parens (p : Program) : Nat :=
  (p.declarations.map Decl.parens).sum

theorem Expr.allParens_append (es es' : List Expr) :
    allParens (es ++ es') = allParens es + allParens es' := by
  induction es with
  | nil => simp
  | cons e es ih => simp [ih, Nat.add_assoc]

@[simp] theorem Item.parens_append (items items' : List Item) :
    parens (items ++ items') = parens items + parens items' := by
  induction items with
  | nil => simp
  | cons item items ih => cases item <;> simp [ih] <;> omega

@[simp] theorem Item.parens_ofExpr? (e : Option Expr) :
    parens (ofExpr? e) = Expr.optionParens e := by
  cases e <;> simp [ofExpr?]

@[simp] theorem Item.parens_ofControl (kind : ControlKind) (loc : Location) (items : List Item) :
    parens (ofControl kind loc :: items) = parens items + 1 := by
  simp [ofControl]

/-! ## Tokens -/

def countParens (w : List Token) : Nat :=
  w.countP (·.kind = .rpar)

@[simp] theorem countParens_nil : countParens [] = 0 := rfl

@[simp] theorem countParens_cons (t : Token) (w : List Token) :
    countParens (t :: w) = countParens w + if t.kind = .rpar then 1 else 0 := by
  simp [countParens, List.countP_cons]

@[simp] theorem countParens_append (w w' : List Token) :
    countParens (w ++ w') = countParens w + countParens w' :=
  List.countP_append

variable {source : List Char}

mutual

theorem SpellsExpr.count_parens : ∀ {t : Tree} {e : Expr}, SpellsExpr t e → t.WellFormed →
    countParens t.leaves = e.bare.parens
  | _, _, .expr part, ht | _, _, .assignNone part, ht | _, _, .operand part, ht
  | _, _, .unaryAtom part, ht => by
    simpa [Tree.leaves, Tree.leavesAll] using part.count_parens ht.2.1
  | _, _, .assignTo value, ht => by
    obtain ⟨hbody, -, -, hvalue, -⟩ := ht
    simp [Tree.symbol, Rule.body] at hbody
    simp [Tree.leaves, Tree.leavesAll, hbody, value.count_parens hvalue, Expr.bare, Expr.bareOption]
  | _, _, .not operand, ht => by
    obtain ⟨hbody, -, hvalue, -⟩ := ht
    simp [Tree.symbol, Rule.body] at hbody
    simp [Tree.leaves, Tree.leavesAll, hbody, operand.count_parens hvalue, Expr.bare]
  | _, _, .paren value, ht => by
    obtain ⟨hbody, -, hvalue, -⟩ := ht
    simp [Tree.symbol, Rule.body] at hbody
    simp [Tree.leaves, Tree.leavesAll, hbody, value.count_parens hvalue, Expr.bare]
  | _, _, @SpellsExpr.binary op _ _ _ _ _ left right, ht => by
    obtain ⟨hbody, hl, -, hr, -⟩ := ht
    simp [Tree.symbol, Rule.body] at hbody
    have hsign : op.terminal ≠ .rpar := by cases op <;> decide
    simp [Tree.leaves, Tree.leavesAll, hbody, hsign, left.count_parens hl, right.count_parens hr,
      Expr.bare]
  | _, _, .int, ht | _, _, .float _, ht | _, _, .string _, ht | _, _, .name, ht => by
    have hbody := ht.1
    simp [Tree.symbol, Rule.body] at hbody
    simp [Tree.leaves, Tree.leavesAll, hbody, Expr.bare]
  | _, _, .callEmpty, ht => by
    have hbody := ht.1
    simp [Tree.symbol, Rule.body] at hbody
    simp [Tree.leaves, Tree.leavesAll, hbody, Expr.bare, Expr.bareAll]
  | _, _, .call arguments, ht => by
    obtain ⟨hbody, -, -, hargs, -⟩ := ht
    simp [Tree.symbol, Rule.body] at hbody
    simp [Tree.leaves, Tree.leavesAll, hbody, arguments.count_parens hargs, Expr.bare]

theorem SpellsArgs.count_parens : ∀ {t : Tree} {es : List Expr}, SpellsArgs t es → t.WellFormed →
    countParens t.leaves = Expr.allParens (Expr.bareAll es)
  | _, _, .many first rest, ht => by
    simp [Tree.leaves, Tree.leavesAll, first.count_parens ht.2.1, rest.count_parens ht.2.2.1,
      Expr.bareAll]
  | _, _, .one only, ht => by
    simp [Tree.leaves, Tree.leavesAll, only.count_parens ht.2.1, Expr.bareAll]
  | _, _, .tailFirst first, ht => by
    obtain ⟨hbody, -, hfirst, -⟩ := ht
    simp [Tree.symbol, Rule.body] at hbody
    simp [Tree.leaves, Tree.leavesAll, hbody, first.count_parens hfirst, Expr.bareAll]
  | _, _, .tailMore more last, ht => by
    obtain ⟨hbody, hmore, -, hlast, -⟩ := ht
    simp [Tree.symbol, Rule.body] at hbody
    simp [Tree.leaves, Tree.leavesAll, hbody, more.count_parens hmore, last.count_parens hlast,
      Expr.bareAll_eq_map, Expr.allParens_append]

end

theorem SpellsType.count_parens {t : Tree} {type : String} (h : SpellsType t type)
    (ht : t.WellFormed) : countParens t.leaves = 0 := by
  obtain ⟨⟩ := h
  next basic token =>
  have hbody := ht.1
  simp [Tree.symbol, Rule.body] at hbody
  have hbasic : basic.terminal ≠ .rpar := by cases basic <;> decide
  simp [Tree.leaves, Tree.leavesAll, hbody, hbasic]

theorem SpellsVar.count_parens {t : Tree} {d : VarDecl} (h : SpellsVar source t d)
    (ht : t.WellFormed) : countParens t.leaves = Expr.optionParens d.bare.value := by
  cases h with
  | plain typed =>
    obtain ⟨hbody, htype, -⟩ := ht
    simp [Tree.symbol, Rule.body] at hbody
    simp [Tree.leaves, Tree.leavesAll, hbody, typed.count_parens htype, VarDecl.bare,
      Expr.bareOption]
  | constant typed =>
    obtain ⟨hbody, -, htype, -⟩ := ht
    simp [Tree.symbol, Rule.body] at hbody
    simp [Tree.leaves, Tree.leavesAll, hbody, typed.count_parens htype, VarDecl.bare,
      Expr.bareOption]
  | plainInit typed value =>
    obtain ⟨hbody, htype, -, -, hvalue, -⟩ := ht
    simp [Tree.symbol, Rule.body] at hbody
    simp [Tree.leaves, Tree.leavesAll, hbody, typed.count_parens htype, value.count_parens hvalue,
      VarDecl.bare, Expr.bareOption]
  | constantInit typed value =>
    obtain ⟨hbody, -, htype, -, -, hvalue, -⟩ := ht
    simp [Tree.symbol, Rule.body] at hbody
    simp [Tree.leaves, Tree.leavesAll, hbody, typed.count_parens htype, value.count_parens hvalue,
      VarDecl.bare, Expr.bareOption]

theorem Performs.parens {e : Expr} {s : Stmt} (h : Performs e s) (φ : FramePath) (n : Nat) :
    Item.parens (s.bare.items φ n) = e.bare.parens := by
  cases h <;> simp [Stmt.bare, Expr.bare, Stmt.items]

theorem SpellsInit.count_parens {t : Tree} {init : Option Stmt} (h : SpellsInit source t init)
    (ht : t.WellFormed) (φ : FramePath) (n : Nat) :
    countParens t.leaves = Item.parens (Stmt.optionItems φ n (Stmt.bareOption init)) := by
  cases h with
  | var spec =>
    simp [Tree.leaves, Tree.leavesAll, spec.count_parens ht.2.1, Stmt.bareOption, Stmt.optionItems,
      Stmt.bare, Stmt.items]
  | expr value performs =>
    simp [Tree.leaves, Tree.leavesAll, value.count_parens ht.2.1, Stmt.bareOption,
      Stmt.optionItems, performs.parens]
  | empty => rfl

theorem SpellsCond.count_parens {t : Tree} {condition : Option Expr} (h : SpellsCond t condition)
    (ht : t.WellFormed) :
    countParens t.leaves = Expr.optionParens (Expr.bareOption condition) := by
  cases h with
  | expr value => simp [Tree.leaves, Tree.leavesAll, value.count_parens ht.2.1, Expr.bareOption]
  | empty => rfl

theorem SpellsUpdate.count_parens {t : Tree} {update : Option Stmt} (h : SpellsUpdate t update)
    (ht : t.WellFormed) (φ : FramePath) (n : Nat) :
    countParens t.leaves = Item.parens (Stmt.optionItems φ n (Stmt.bareOption update)) := by
  cases h with
  | expr value performs =>
    simp [Tree.leaves, Tree.leavesAll, value.count_parens ht.2.1, Stmt.bareOption,
      Stmt.optionItems, performs.parens]
  | empty => rfl

mutual

theorem SpellsStmt.count_parens : ∀ {t : Tree} {s : Stmt}, SpellsStmt source t s → t.WellFormed →
    ∀ (φ : FramePath) (n : Nat), countParens t.leaves = Item.parens (s.bare.items φ n)
  | _, _, .varDecl spec, ht, φ, n => by
    obtain ⟨-, ⟨hbody, hspec, -⟩, -⟩ := ht
    simp [Tree.symbol, Rule.body] at hbody
    simp [Tree.leaves, Tree.leavesAll, hbody, spec.count_parens hspec, Stmt.bare, Stmt.items]
  | _, _, .block body, ht, φ, n => by
    simp [Tree.leaves, Tree.leavesAll, body.count_parens ht.2.1 (n :: φ), Stmt.bare, Stmt.items]
  | _, _, .form _ part, ht, φ, n => by
    simp [Tree.leaves, Tree.leavesAll, part.count_parens ht.2.1 φ n]
  | _, _, .expr value performs, ht, φ, n => by
    obtain ⟨hbody, hvalue, -⟩ := ht
    simp [Tree.symbol, Rule.body] at hbody
    simp [Tree.leaves, Tree.leavesAll, hbody, value.count_parens hvalue, performs.parens]
  | _, _, .ifThen condition thenBlock, ht, φ, n => by
    obtain ⟨hbody, -, -, hcondition, -, hthen, -⟩ := ht
    simp [Tree.symbol, Rule.body] at hbody
    simp [Tree.leaves, Tree.leavesAll, hbody, condition.count_parens hcondition,
      thenBlock.count_parens hthen (0 :: n :: φ), Stmt.bare, Stmt.items, Block.bareOption,
      Block.optionItems]
    omega
  | _, _, .ifElse condition thenBlock elseBlock, ht, φ, n => by
    obtain ⟨hbody, -, -, hcondition, -, hthen, -, helse, -⟩ := ht
    simp [Tree.symbol, Rule.body] at hbody
    simp [Tree.leaves, Tree.leavesAll, hbody, condition.count_parens hcondition,
      thenBlock.count_parens hthen (0 :: n :: φ), elseBlock.count_parens helse (1 :: n :: φ),
      Stmt.bare, Stmt.items, Block.bareOption, Block.optionItems]
    omega
  | _, _, .ifElseIf condition thenBlock elseIf, ht, φ, n => by
    obtain ⟨hbody, -, -, hcondition, -, hthen, -, helse, -⟩ := ht
    simp [Tree.symbol, Rule.body] at hbody
    simp [Tree.leaves, Tree.leavesAll, hbody, condition.count_parens hcondition,
      thenBlock.count_parens hthen (0 :: n :: φ), elseIf.count_parens helse (1 :: n :: φ) 0,
      Stmt.bare, Stmt.items, Block.bareOption, Block.optionItems, Block.bare, Block.items,
      Stmt.bareAll, Stmt.allItems]
    omega
  | _, _, .whileLoop condition loop, ht, φ, n => by
    obtain ⟨hbody, -, -, hcondition, -, hloop, -⟩ := ht
    simp [Tree.symbol, Rule.body] at hbody
    simp [Tree.leaves, Tree.leavesAll, hbody, condition.count_parens hcondition,
      loop.count_parens hloop (n :: φ), Stmt.bare, Stmt.items]
    omega
  | _, _, .forLoop start test step loop, ht, φ, n => by
    obtain ⟨hbody, -, -, hstart, -, htest, -, hstep, -, hloop, -⟩ := ht
    simp [Tree.symbol, Rule.body] at hbody
    simp [Tree.leaves, Tree.leavesAll, hbody, start.count_parens hstart (n :: φ) 0,
      test.count_parens htest, step.count_parens hstep (n :: φ) 1,
      loop.count_parens hloop (2 :: n :: φ), Stmt.bare, Stmt.items]
    omega
  | _, _, .returnValue value, ht, φ, n => by
    obtain ⟨hbody, -, hvalue, -⟩ := ht
    simp [Tree.symbol, Rule.body] at hbody
    simp [Tree.leaves, Tree.leavesAll, hbody, value.count_parens hvalue, Stmt.bare, Stmt.items,
      Expr.bareOption]
  | _, _, .returnBare, ht, φ, n => by
    have hbody := ht.1
    simp [Tree.symbol, Rule.body] at hbody
    simp [Tree.leaves, Tree.leavesAll, hbody, Stmt.bare, Stmt.items, Expr.bareOption]

theorem SpellsBlock.count_parens : ∀ {t : Tree} {b : Block}, SpellsBlock source t b →
    t.WellFormed → ∀ φ : FramePath, countParens t.leaves = Item.parens (b.bare.items φ)
  | _, _, .full body, ht, φ => by
    obtain ⟨hbody, -, hstmts, -⟩ := ht
    simp [Tree.symbol, Rule.body] at hbody
    simp [Tree.leaves, Tree.leavesAll, hbody, body.count_parens hstmts φ 0, Block.bare, Block.items]
  | _, _, .empty, ht, φ => by
    have hbody := ht.1
    simp [Tree.symbol, Rule.body] at hbody
    simp [Tree.leaves, Tree.leavesAll, hbody, Block.bare, Block.items, Stmt.bareAll, Stmt.allItems]

theorem SpellsStmts.count_parens : ∀ {t : Tree} {ss : List Stmt}, SpellsStmts source t ss →
    t.WellFormed → ∀ (φ : FramePath) (n : Nat),
      countParens t.leaves = Item.parens (Stmt.allItems φ n (Stmt.bareAll ss))
  | _, _, .first only, ht, φ, n => by
    simp [Tree.leaves, Tree.leavesAll, only.count_parens ht.2.1 φ n, Stmt.bareAll, Stmt.allItems]
  | _, _, @SpellsStmts.more _ _ _ ss _ before last, ht, φ, n => by
    simp [Tree.leaves, Tree.leavesAll, before.count_parens ht.2.1 φ n,
      last.count_parens ht.2.2.1 φ (n + ss.length), Stmt.bareAll_eq_map, Stmt.allItems_append,
      Stmt.allItems]

end

theorem SpellsParams.count_parens {t : Tree} {ps : List Param} (h : SpellsParams t ps)
    (ht : t.WellFormed) : countParens t.leaves = 0 := by
  have hparam {t : Tree} {p : Param} (h : SpellsParam t p) (ht : t.WellFormed) :
      countParens t.leaves = 0 := by
    obtain ⟨typed⟩ := h
    obtain ⟨hbody, htype, -⟩ := ht
    simp [Tree.symbol, Rule.body] at hbody
    simp [Tree.leaves, Tree.leavesAll, hbody, typed.count_parens htype]
  induction h with
  | many first _ ih => simp [Tree.leaves, Tree.leavesAll, hparam first ht.2.1, ih ht.2.2.1]
  | one only => simp [Tree.leaves, Tree.leavesAll, hparam only ht.2.1]
  | tailFirst first =>
    obtain ⟨hbody, -, hfirst, -⟩ := ht
    simp [Tree.symbol, Rule.body] at hbody
    simp [Tree.leaves, Tree.leavesAll, hbody, hparam first hfirst]
  | tailMore _ last ih =>
    obtain ⟨hbody, hmore, -, hlast, -⟩ := ht
    simp [Tree.symbol, Rule.body] at hbody
    simp [Tree.leaves, Tree.leavesAll, hbody, hparam last hlast, ih hmore]

theorem SpellsResult.count_parens {form : ResultForm} {ts : List Tree} {result : Option String}
    (h : SpellsResult form ts result) (hts : Tree.AllWellFormed ts)
    (hbody : ts.map Tree.symbol = form.body) : countParens (Tree.leavesAll ts) = 0 := by
  cases h with
  | typed typed => simp [Tree.leavesAll, typed.count_parens hts.1]
  | void =>
    simp [ResultForm.body] at hbody
    simp [Tree.leavesAll, Tree.leaves, hbody]
  | absent => rfl

theorem SpellsFunction.count_parens {t : Tree} {f : FunctionDef} (h : SpellsFunction source t f)
    (ht : t.WellFormed) : countParens t.leaves = Decl.parens (.func f.bare) := by
  have hitems (b : Block) : Stmt.allItems [] 0 b.statements = b.items [] := by cases b; rfl
  cases h with
  | params type parameters block =>
    obtain ⟨hbody, hparts⟩ := ht
    obtain ⟨hts, -, -, hparams, -, hblock, -⟩ := Tree.allWellFormed_append_cons hparts
    rw [List.map_append, Rule.body, List.append_assoc, List.append_assoc] at hbody
    obtain ⟨hresult, hrest⟩ := List.append_inj hbody (by cases type <;> rfl)
    simp at hrest
    simp [Tree.leaves, Tree.leavesAll_append, Tree.leavesAll, type.count_parens hts hresult, hrest,
      parameters.count_parens hparams, block.count_parens hblock [], Decl.parens, FunctionDef.items,
      FunctionDef.bare, hitems]
  | noParams type block =>
    obtain ⟨hbody, hparts⟩ := ht
    obtain ⟨hts, -, -, -, hblock, -⟩ := Tree.allWellFormed_append_cons hparts
    rw [List.map_append, Rule.body, List.append_assoc, List.append_assoc] at hbody
    obtain ⟨hresult, hrest⟩ := List.append_inj hbody (by cases type <;> rfl)
    simp at hrest
    simp [Tree.leaves, Tree.leavesAll_append, Tree.leavesAll, type.count_parens hts hresult, hrest,
      block.count_parens hblock [], Decl.parens, FunctionDef.items, FunctionDef.bare, hitems]

theorem SpellsDecl.count_parens {t : Tree} {d : Decl} (h : SpellsDecl source t d)
    (ht : t.WellFormed) : countParens t.leaves = d.bare.parens := by
  cases h with
  | var spec =>
    obtain ⟨-, ⟨hbody, hspec, -⟩, -⟩ := ht
    simp [Tree.symbol, Rule.body] at hbody
    simp [Tree.leaves, Tree.leavesAll, hbody, spec.count_parens hspec, Decl.bare, Decl.parens]
  | func function =>
    simp [Tree.leaves, Tree.leavesAll, function.count_parens ht.2.1, Decl.bare]

theorem SpellsDecls.count_parens {t : Tree} {ds : List Decl} (h : SpellsDecls source t ds)
    (ht : t.WellFormed) :
    countParens t.leaves = ((ds.map Decl.bare).map Decl.parens).sum := by
  induction h with
  | first only => simp [Tree.leaves, Tree.leavesAll, only.count_parens ht.2.1]
  | more _ last ih =>
    simp [Tree.leaves, Tree.leavesAll, ih ht.2.1, last.count_parens ht.2.2.1]

/-- The closing parentheses of a program, up to places, are the tokens in its tree. -/
theorem SpellsProgram.count_parens {t : Tree} {p : Program} (h : SpellsProgram source t p)
    (ht : t.WellFormed) : countParens t.leaves = p.bare.parens := by
  cases h with
  | decls declarations =>
    simp only [Tree.leaves, Tree.leavesAll, List.append_nil, declarations.count_parens ht.2.1,
      Program.parens, Program.bare]
  | empty => rfl

end Sema
