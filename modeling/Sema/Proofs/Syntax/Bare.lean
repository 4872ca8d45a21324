import Sema.Proofs.Syntax.Total

/-!
# Programs without places

What is left of tokens, trees and programs when the places are taken out, and the texts of the
initializers with them. Reading does not look at places: a tree and its bare form read as programs
with the same bare form, or both fail (`SpellsProgram.agree`). So what tokens read as, up to places,
is settled by their kinds and texts (`exists_reading_of_bare_eq`).
-/

namespace Sema

/-! ## Tokens and trees -/

def Token.bare (t : Token) : Token :=
  { t with start := .start, stop := .start }

@[simp] theorem Token.kind_bare (t : Token) : t.bare.kind = t.kind := rfl

@[simp] theorem Token.text_bare (t : Token) : t.bare.text = t.text := rfl

mutual

def Tree.bare : Tree → Tree
  | leaf t => leaf t.bare
  | node r children => node r (bareAll children)

def Tree.bareAll : List Tree → List Tree
  | [] => []
  | t :: ts => bare t :: bareAll ts

end

theorem Tree.bareAll_eq_map (ts : List Tree) : Tree.bareAll ts = ts.map Tree.bare := by
  induction ts with
  | nil => rfl
  | cons t ts ih => rw [Tree.bareAll, ih, List.map_cons]

mutual

theorem Tree.leaves_bare : ∀ t : Tree, t.bare.leaves = t.leaves.map Token.bare
  | .leaf _ => rfl
  | .node _ ts => leavesAll_bareAll ts

theorem Tree.leavesAll_bareAll : ∀ ts : List Tree,
    leavesAll (bareAll ts) = (leavesAll ts).map Token.bare
  | [] => rfl
  | t :: ts => by
    rw [bareAll, leavesAll, leavesAll, leaves_bare t, leavesAll_bareAll ts, List.map_append]

end

mutual

theorem Tree.exists_with_leaves : ∀ (t : Tree) (w : List Token),
    w.map Token.bare = t.leaves.map Token.bare →
    ∃ t' : Tree, t'.bare = t.bare ∧ t'.leaves = w ∧ t'.symbol = t.symbol ∧
      (t.WellFormed → t'.WellFormed)
  | .leaf token, w, hw => by
    obtain ⟨token', rest, rfl, htoken, hrest⟩ := List.map_eq_cons_iff.mp hw
    obtain rfl := List.map_eq_nil_iff.mp hrest
    have hkind : token'.kind = token.kind := by simpa using congrArg Token.kind htoken
    exact ⟨.leaf token', by simp [bare, htoken], rfl, by simp [symbol, hkind], id⟩
  | .node r ts, w, hw => by
    obtain ⟨ts', hbare, hleaves, hsymbols, hwf⟩ := exists_all_with_leaves ts w hw
    refine ⟨.node r ts', by rw [bare, bare, hbare], hleaves, rfl, fun h => ⟨?_, hwf h.2⟩⟩
    rw [hsymbols]
    exact h.1

theorem Tree.exists_all_with_leaves : ∀ (ts : List Tree) (w : List Token),
    w.map Token.bare = (leavesAll ts).map Token.bare →
    ∃ ts' : List Tree, bareAll ts' = bareAll ts ∧ leavesAll ts' = w ∧
      ts'.map symbol = ts.map symbol ∧ (AllWellFormed ts → AllWellFormed ts')
  | [], w, hw => by
    obtain rfl := List.map_eq_nil_iff.mp hw
    exact ⟨[], rfl, rfl, rfl, id⟩
  | t :: ts, w, hw => by
    rw [leavesAll, List.map_append] at hw
    obtain ⟨u, v, rfl, hu, hv⟩ := List.map_eq_append_iff.mp hw
    obtain ⟨t', hbare, hleaves, hsymbol, hwf⟩ := exists_with_leaves t u hu
    obtain ⟨ts', hbare', hleaves', hsymbols, hwf'⟩ := exists_all_with_leaves ts v hv
    refine ⟨t' :: ts', ?_, ?_, ?_, fun h => ⟨hwf h.1, hwf' h.2⟩⟩
    · rw [bareAll, bareAll, hbare, hbare']
    · rw [leavesAll, hleaves, hleaves']
    · rw [List.map_cons, List.map_cons, hsymbol, hsymbols]

end

/-! ## Programs -/

def Location.nowhere : Location := ⟨0, 0, none⟩

mutual

def Expr.bare : Expr → Expr
  | .int _ value => .int .nowhere value
  | .float _ bits => .float .nowhere bits
  | .string _ text => .string .nowhere text
  | .name _ ident => .name .nowhere ident
  | .paren _ value => .paren .nowhere value.bare
  | .not _ operand => .not .nowhere operand.bare
  | .binary _ op left right => .binary .nowhere op left.bare right.bare
  | .assign _ target value => .assign .nowhere target (Expr.bareOption value)
  | .call _ func args => .call .nowhere func (Expr.bareAll args)
  | .unsupported => .unsupported

def Expr.bareOption : Option Expr → Option Expr
  | none => none
  | some e => some e.bare

def Expr.bareAll : List Expr → List Expr
  | [] => []
  | e :: es => e.bare :: Expr.bareAll es

end

/-- The declaration of a variable without places and without the text of its initializer. -/
def VarDecl.bare (d : VarDecl) : VarDecl :=
  { d with loc := .nowhere, value := Expr.bareOption d.value, initText := "" }

mutual

def Stmt.bare : Stmt → Stmt
  | .varDecl d => .varDecl d.bare
  | .assign _ target value => .assign .nowhere target (Expr.bareOption value)
  | .expr _ value => .expr .nowhere value.bare
  | .block _ body => .block .nowhere body.bare
  | .ifThen _ condition thenBlock elseBlock =>
    .ifThen .nowhere condition.bare thenBlock.bare (Block.bareOption elseBlock)
  | .whileLoop _ condition body => .whileLoop .nowhere condition.bare body.bare
  | .forLoop _ init condition update body =>
    .forLoop .nowhere (Stmt.bareOption init) (Expr.bareOption condition) (Stmt.bareOption update)
      body.bare
  | .result _ value => .result .nowhere (Expr.bareOption value)
  | .unsupported => .unsupported

def Stmt.bareOption : Option Stmt → Option Stmt
  | none => none
  | some s => some s.bare

def Block.bare : Block → Block
  | .mk _ statements => .mk .nowhere (Stmt.bareAll statements)

def Block.bareOption : Option Block → Option Block
  | none => none
  | some b => some b.bare

def Stmt.bareAll : List Stmt → List Stmt
  | [] => []
  | s :: ss => s.bare :: Stmt.bareAll ss

end

def Param.bare (p : Param) : Param :=
  { p with loc := .nowhere }

def FunctionDef.bare (f : FunctionDef) : FunctionDef :=
  { f with loc := .nowhere, params := f.params.map Param.bare, body := f.body.bare }

def Decl.bare : Decl → Decl
  | .func f => .func f.bare
  | .var d => .var d.bare
  | .unsupported => .unsupported

/-- A program without places and without the texts of initializers. -/
def Program.bare (p : Program) : Program :=
  ⟨p.declarations.map Decl.bare⟩

theorem Expr.bareAll_eq_map (es : List Expr) : Expr.bareAll es = es.map Expr.bare := by
  induction es with
  | nil => rfl
  | cons e es ih => rw [Expr.bareAll, ih, List.map_cons]

theorem Stmt.bareAll_eq_map (ss : List Stmt) : Stmt.bareAll ss = ss.map Stmt.bare := by
  induction ss with
  | nil => rfl
  | cons s ss ih => rw [Stmt.bareAll, ih, List.map_cons]

/-! ## Readings that agree -/

namespace Reading

/-- Two readings agree: both fail in the same way, or they give what is the same under `f`. -/
def Agree {α β : Type} (f : α → β) (x y : Reading α) : Prop :=
  f <$> x = f <$> y

theorem Agree.of_eq {α β : Type} {f : α → β} {a b : α} (h : f a = f b) :
    Agree f (.ok a) (.ok b) :=
  congrArg Except.ok h

theorem Agree.cases {α β : Type} {f : α → β} {x y : Reading α} (h : Agree f x y) :
    (∃ e, x = .error e ∧ y = .error e) ∨ ∃ a b, x = .ok a ∧ y = .ok b ∧ f a = f b := by
  cases x with
  | error e =>
    cases y with
    | error e' => exact .inl ⟨e, rfl, congrArg Except.error (Except.error.inj h).symm⟩
    | ok b => cases h
  | ok a =>
    cases y with
    | error e => cases h
    | ok b => exact .inr ⟨a, b, rfl, rfl, Except.ok.inj h⟩

theorem Agree.bind {α β γ δ : Type} {f : α → β} {g : γ → δ} {x y : Reading α}
    {k l : α → Reading γ} (h : Agree f x y) (hk : ∀ a b, f a = f b → Agree g (k a) (l b)) :
    Agree g (x >>= k) (y >>= l) := by
  rcases h.cases with ⟨e, rfl, rfl⟩ | ⟨a, b, rfl, rfl, hab⟩
  · rfl
  · exact hk a b hab

theorem Agree.map {α β γ δ : Type} {f : α → β} {g : γ → δ} {k l : α → γ} {x y : Reading α}
    (h : Agree f x y) (hk : ∀ a b, f a = f b → g (k a) = g (l b)) :
    Agree g (k <$> x) (l <$> y) := by
  rw [map_eq_pure_bind, map_eq_pure_bind]
  exact h.bind fun a b hab => .of_eq (hk a b hab)

end Reading

open Reading (Agree)

mutual

theorem SpellsExpr.agree : ∀ {t : Tree} {e : Expr}, SpellsExpr t e →
    Agree Expr.bare (Reading.expr t.bare) (Reading.expr t)
  | _, _, .expr part => part.agree
  | _, _, .assignNone part => part.agree
  | _, _, .operand part => part.agree
  | _, _, .unaryAtom part => part.agree
  | _, _, .assignTo value =>
    value.agree.bind fun a b h => .of_eq (by simp [Expr.bare, Expr.bareOption, h])
  | _, _, .binary left right =>
    left.agree.bind fun a b h => right.agree.bind fun c d h' => .of_eq (by simp [Expr.bare, h, h'])
  | _, _, .not operand => operand.agree.bind fun a b h => .of_eq (by simp [Expr.bare, h])
  | _, _, .int => Agree.bind (f := id) rfl fun a b h => .of_eq (by simp_all [Expr.bare])
  | _, _, .float _ => .of_eq rfl
  | _, _, .string _ => .of_eq rfl
  | _, _, .name => .of_eq rfl
  | _, _, .paren value => value.agree.bind fun a b h => .of_eq (by simp [Expr.bare, h])
  | _, _, .call arguments =>
    arguments.agree.bind fun a b h => .of_eq (by simp [Expr.bare, h])
  | _, _, .callEmpty => .of_eq rfl

theorem SpellsArgs.agree : ∀ {t : Tree} {es : List Expr}, SpellsArgs t es →
    Agree Expr.bareAll (Reading.args t.bare) (Reading.args t)
  | _, _, .many first rest =>
    first.agree.bind fun a b h => rest.agree.bind fun c d h' =>
      .of_eq (by simp [Expr.bareAll, h, h'])
  | _, _, .one only => only.agree.bind fun a b h => .of_eq (by simp [Expr.bareAll, h])
  | _, _, .tailFirst first => first.agree.bind fun a b h => .of_eq (by simp [Expr.bareAll, h])
  | _, _, .tailMore more last =>
    more.agree.bind fun a b h => last.agree.bind fun c d h' =>
      .of_eq (by simp_all [Expr.bareAll_eq_map])

end

theorem SpellsType.agree {t : Tree} {type : String} (h : SpellsType t type) :
    Agree id (Reading.typeName t.bare) (Reading.typeName t) := by
  cases h
  rfl

theorem bare_exprAsStmt {e e' : Expr} (h : e.bare = e'.bare) :
    (Reading.exprAsStmt e).bare = (Reading.exprAsStmt e').bare := by
  cases e <;> cases e' <;> simp_all [Reading.exprAsStmt, Expr.bare, Stmt.bare]

section

variable {source source' : List Char}

theorem SpellsVar.agree {t : Tree} {d : VarDecl} (h : SpellsVar source t d) :
    Agree VarDecl.bare (Reading.varSpec source' t.bare) (Reading.varSpec source t) := by
  cases h with
  | plain typed => exact typed.agree.bind fun a b h => .of_eq (by simp_all [VarDecl.bare])
  | constant typed => exact typed.agree.bind fun a b h => .of_eq (by simp_all [VarDecl.bare])
  | plainInit typed value =>
    exact value.agree.bind fun a b h => typed.agree.bind fun c d h' =>
      .of_eq (by simp_all [VarDecl.bare, Expr.bareOption])
  | constantInit typed value =>
    exact value.agree.bind fun a b h => typed.agree.bind fun c d h' =>
      .of_eq (by simp_all [VarDecl.bare, Expr.bareOption])

theorem SpellsInit.agree {t : Tree} {init : Option Stmt} (h : SpellsInit source t init) :
    Agree Stmt.bareOption (Reading.forInit source' t.bare) (Reading.forInit source t) := by
  cases h with
  | var spec => exact spec.agree.bind fun a b h => .of_eq (by simp [Stmt.bareOption, Stmt.bare, h])
  | expr value _ =>
    exact value.agree.bind fun a b h => .of_eq (by simp [Stmt.bareOption, bare_exprAsStmt h])
  | empty => rfl

theorem SpellsCond.agree {t : Tree} {condition : Option Expr} (h : SpellsCond t condition) :
    Agree Expr.bareOption (Reading.forCond t.bare) (Reading.forCond t) := by
  cases h with
  | expr value => exact value.agree.bind fun a b h => .of_eq (by simp [Expr.bareOption, h])
  | empty => rfl

theorem SpellsUpdate.agree {t : Tree} {update : Option Stmt} (h : SpellsUpdate t update) :
    Agree Stmt.bareOption (Reading.forUpdate t.bare) (Reading.forUpdate t) := by
  cases h with
  | expr value _ =>
    exact value.agree.bind fun a b h => .of_eq (by simp [Stmt.bareOption, bare_exprAsStmt h])
  | empty => rfl

mutual

theorem SpellsStmt.agree : ∀ {t : Tree} {s : Stmt}, SpellsStmt source t s →
    Agree Stmt.bare (Reading.stmt source' t.bare) (Reading.stmt source t)
  | _, _, .varDecl spec => spec.agree.bind fun a b h => .of_eq (by simp [Stmt.bare, h])
  | _, _, .block body => body.agree.bind fun a b h => .of_eq (by simp [Stmt.bare, h])
  | _, _, @SpellsStmt.form _ form t _ other part => by
    show Agree Stmt.bare (Reading.stmt source' (.node (.stmt form) [t.bare])) _
    rw [Reading.stmt_form other, Reading.stmt_form other]
    exact part.agree
  | _, _, .expr value _ => value.agree.bind fun a b h => .of_eq (bare_exprAsStmt h)
  | _, _, .ifThen condition thenBlock =>
    condition.agree.bind fun a b h => thenBlock.agree.bind fun c d h' =>
      .of_eq (by simp [Stmt.bare, Block.bareOption, h, h'])
  | _, _, .ifElse condition thenBlock elseBlock =>
    elseBlock.agree.bind fun a b h => condition.agree.bind fun c d h' =>
      thenBlock.agree.bind fun x y hyes =>
        .of_eq (by simp [Stmt.bare, Block.bareOption, h, h', hyes])
  | _, _, .ifElseIf condition thenBlock elseIf =>
    elseIf.agree.bind fun a b h => condition.agree.bind fun c d h' =>
      thenBlock.agree.bind fun x y hyes =>
        .of_eq (by simp [Stmt.bare, Block.bareOption, Block.bare, Stmt.bareAll, h, h', hyes])
  | _, _, .whileLoop condition loop =>
    condition.agree.bind fun a b h => loop.agree.bind fun c d h' =>
      .of_eq (by simp [Stmt.bare, h, h'])
  | _, _, .forLoop start test step loop =>
    start.agree.bind fun a b h => test.agree.bind fun c d h' => step.agree.bind fun x y hstep =>
      loop.agree.bind fun u v hloop => .of_eq (by simp [Stmt.bare, h, h', hstep, hloop])
  | _, _, .returnValue value =>
    value.agree.bind fun a b h => .of_eq (by simp [Stmt.bare, Expr.bareOption, h])
  | _, _, .returnBare => .of_eq rfl

theorem SpellsBlock.agree : ∀ {t : Tree} {b : Block}, SpellsBlock source t b →
    Agree Block.bare (Reading.block source' t.bare) (Reading.block source t)
  | _, _, .full body => body.agree.bind fun a b h => .of_eq (by simp [Block.bare, h])
  | _, _, .empty => .of_eq rfl

theorem SpellsStmts.agree : ∀ {t : Tree} {ss : List Stmt}, SpellsStmts source t ss →
    Agree Stmt.bareAll (Reading.stmts source' t.bare) (Reading.stmts source t)
  | _, _, .first only => only.agree.bind fun a b h => .of_eq (by simp [Stmt.bareAll, h])
  | _, _, .more before last =>
    before.agree.bind fun a b h => last.agree.bind fun c d h' =>
      .of_eq (by simp_all [Stmt.bareAll_eq_map])

end

theorem SpellsParam.agree {t : Tree} {p : Param} (h : SpellsParam t p) :
    Agree Param.bare (Reading.param t.bare) (Reading.param t) := by
  cases h with
  | mk typed => exact typed.agree.bind fun a b h => .of_eq (by simp_all [Param.bare])

theorem SpellsParams.agree {t : Tree} {ps : List Param} (h : SpellsParams t ps) :
    Agree (List.map Param.bare) (Reading.params t.bare) (Reading.params t) := by
  induction h with
  | many first _ ih =>
    exact first.agree.bind fun a b h => ih.bind fun c d h' => .of_eq (by simp [h, h'])
  | one only => exact only.agree.bind fun a b h => .of_eq (by simp [h])
  | tailFirst first => exact first.agree.bind fun a b h => .of_eq (by simp [h])
  | tailMore _ last ih =>
    exact ih.bind fun a b h => last.agree.bind fun c d h' => .of_eq (by simp [h, h'])

theorem SpellsFunction.agree {t : Tree} {f : FunctionDef} (h : SpellsFunction source t f) :
    Agree FunctionDef.bare (Reading.funcDef source' t.bare) (Reading.funcDef source t) := by
  cases h with
  | params type parameters block =>
    cases type with
    | typed typed =>
      exact typed.agree.bind fun a b h => parameters.agree.bind fun c d h' =>
        block.agree.bind fun x y hbody => .of_eq (by simp_all [FunctionDef.bare])
    | void =>
      exact parameters.agree.bind fun c d h' =>
        block.agree.bind fun x y hbody => .of_eq (by simp [FunctionDef.bare, h', hbody])
    | absent =>
      exact parameters.agree.bind fun c d h' =>
        block.agree.bind fun x y hbody => .of_eq (by simp [FunctionDef.bare, h', hbody])
  | noParams type block =>
    cases type with
    | typed typed =>
      exact typed.agree.bind fun a b h =>
        block.agree.bind fun x y hbody => .of_eq (by simp_all [FunctionDef.bare])
    | void => exact block.agree.bind fun x y hbody => .of_eq (by simp [FunctionDef.bare, hbody])
    | absent => exact block.agree.bind fun x y hbody => .of_eq (by simp [FunctionDef.bare, hbody])

theorem SpellsDecl.agree {t : Tree} {d : Decl} (h : SpellsDecl source t d) :
    Agree Decl.bare (Reading.decl source' t.bare) (Reading.decl source t) := by
  cases h with
  | var spec => exact spec.agree.bind fun a b h => .of_eq (by simp [Decl.bare, h])
  | func function => exact function.agree.bind fun a b h => .of_eq (by simp [Decl.bare, h])

theorem SpellsDecls.agree {t : Tree} {ds : List Decl} (h : SpellsDecls source t ds) :
    Agree (List.map Decl.bare) (Reading.decls source' t.bare) (Reading.decls source t) := by
  induction h with
  | first only => exact only.agree.bind fun a b h => .of_eq (by simp [h])
  | more _ last ih =>
    exact ih.bind fun a b h => last.agree.bind fun c d h' => .of_eq (by simp [h, h'])

/-- A program and its bare form read the same, up to places. -/
theorem SpellsProgram.agree {t : Tree} {p : Program} (h : SpellsProgram source t p) :
    Agree Program.bare (Reading.program source' t.bare) (Reading.program source t) := by
  cases h with
  | decls declarations =>
    exact declarations.agree.bind fun a b h => .of_eq (by simp [Program.bare, h])
  | empty => rfl

end

/-- Derivations of programs that differ in the places of their tokens only read the same, up to
places: one has a program if the other has. -/
theorem exists_reading_of_bare_eq {source source' : List Char} {t t' : Tree} {p : Program}
    (ht : t.WellFormed) (hprogram : t.symbol = .phrase .program) (ht' : t'.WellFormed)
    (hprogram' : t'.symbol = .phrase .program) (hbare : t'.bare = t.bare)
    (h : Reading.program source t = .ok p) :
    ∃ p', Reading.program source' t' = .ok p' ∧ p'.bare = p.bare := by
  obtain ⟨q, hq⟩ := exists_spellsProgram source ht hprogram
  obtain ⟨q', hq'⟩ := exists_spellsProgram source' ht' hprogram'
  have hagree : Agree Program.bare (Reading.program [] t.bare) (Reading.program source t) := hq.agree
  have hagree' : Agree Program.bare (Reading.program [] t'.bare) (Reading.program source' t') :=
    hq'.agree
  rw [hbare] at hagree'
  have hboth : Program.bare <$> Reading.program source' t' = .ok p.bare := by
    rw [← hagree', hagree, h, Reading.map_ok]
  cases hp : Reading.program source' t' with
  | error e =>
    rw [hp] at hboth
    cases hboth
  | ok p' =>
    rw [hp] at hboth
    exact ⟨p', rfl, Except.ok.inj hboth⟩

end Sema
