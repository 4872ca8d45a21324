import Sema.Checking.Checker
import Sema.Proofs.Syntax.Plain

/-!
# Checking plain programs

The checker does not see whether an expression stands in parentheses, nor in which of the two ways
an assignment is a statement: it walks over the plain form of each part just as it walks over the
part, from any checker and with the same failures (`Checking.checkProgram_plain`). So a program and
its plain form show the same (`ofProgram_plain`).
-/

namespace Sema

namespace Checking

/-! ## Expressions and statements -/

mutual

theorem checkExpr_plain : ∀ e : Expr, checkExpr e.plain = checkExpr e
  | .int _ _ | .float _ _ | .string _ _ | .name _ _ | .unsupported => rfl
  | .paren _ value => by rw [Expr.plain, checkExpr_plain value, checkExpr]
  | .not _ operand => by rw [Expr.plain, checkExpr, checkExpr, checkExpr_plain operand]
  | .binary _ _ left right => by
    rw [Expr.plain, checkExpr, checkExpr, checkExpr_plain left, checkExpr_plain right]
  | .assign _ _ value => by rw [Expr.plain, checkExpr, checkExpr, checkValue?_plain value]
  | .call _ _ args => by rw [Expr.plain, checkExpr, checkExpr, checkExprs_plain args]

theorem checkValue?_plain : ∀ e : Option Expr, checkValue? (Expr.optionPlain e) = checkValue? e
  | none => rfl
  | some e => by rw [Expr.optionPlain, checkValue?, checkValue?, checkExpr_plain e]

theorem checkExprs_plain : ∀ es : List Expr, checkExprs (Expr.allPlain es) = checkExprs es
  | [] => rfl
  | e :: es => by
    rw [Expr.allPlain, checkExprs, checkExprs, checkExpr_plain e, checkExprs_plain es]

end

theorem checkStmt_asStmt (e : Expr) (loc : Location) :
    checkStmt (e.asStmt loc) = checkStmt (.expr loc e) := by
  cases e with
  | assign here target value => rw [Expr.asStmt, checkStmt, checkStmt, checkExpr]
  | _ => rfl

theorem checkVarDecl_plain (extent : Extent) (d : VarDecl) :
    checkVarDecl extent d.plain = checkVarDecl extent d := by
  obtain ⟨loc, name, type, value, isConst, initText⟩ := d
  cases value with
  | none => rfl
  | some e =>
    simp only [checkVarDecl, VarDecl.plain, Expr.optionPlain, declaredSymbol, checkExpr_plain]

theorem checkCondition?_plain (e : Option Expr) :
    checkCondition? (Expr.optionPlain e) = checkCondition? e := by
  cases e with
  | none => rfl
  | some e => rw [Expr.optionPlain, checkCondition?, checkCondition?, checkExpr_plain]

theorem checkReturn_plain (loc : Location) (e : Option Expr) :
    checkReturn loc (Expr.optionPlain e) = checkReturn loc e := by
  cases e with
  | none => rfl
  | some e => simp only [checkReturn, Expr.optionPlain, checkExpr_plain]

mutual

theorem checkStmt_plain : ∀ s : Stmt, checkStmt s.plain = checkStmt s
  | .varDecl d => checkVarDecl_plain .inFunction d
  | .assign _ _ value => by rw [Stmt.plain, checkStmt, checkStmt, checkValue?_plain]
  | .expr loc value => by
    rw [Stmt.plain, checkStmt_asStmt, checkStmt, checkStmt, checkExpr_plain]
  | .block _ body => by rw [Stmt.plain, checkStmt, checkStmt, checkBlock_plain body]
  | .ifThen _ condition thenBlock elseBlock => by
    rw [Stmt.plain, checkStmt, checkStmt, checkExpr_plain, checkBlock_plain thenBlock,
      checkBlock?_plain elseBlock]
  | .whileLoop _ condition body => by
    rw [Stmt.plain, checkStmt, checkStmt, checkExpr_plain, checkBlock_plain body]
  | .forLoop _ init condition update body => by
    rw [Stmt.plain, checkStmt, checkStmt, checkStmt?_plain init, checkCondition?_plain,
      checkStmt?_plain update, checkBlock_plain body]
  | .result loc value => checkReturn_plain loc value
  | .unsupported => rfl

theorem checkStmt?_plain : ∀ s : Option Stmt, checkStmt? (Stmt.optionPlain s) = checkStmt? s
  | none => rfl
  | some s => by rw [Stmt.optionPlain, checkStmt?, checkStmt?, checkStmt_plain s]

theorem checkBlock_plain : ∀ b : Block, checkBlock b.plain = checkBlock b
  | .mk _ statements => by
    rw [Block.plain, checkBlock, checkBlock, checkStmts_plain statements]

theorem checkBlock?_plain : ∀ b : Option Block, checkBlock? (Block.optionPlain b) = checkBlock? b
  | none => rfl
  | some b => by rw [Block.optionPlain, checkBlock?, checkBlock?, checkBlock_plain b]

theorem checkStmts_plain : ∀ ss : List Stmt, checkStmts (Stmt.allPlain ss) = checkStmts ss
  | [] => rfl
  | s :: ss => by
    rw [Stmt.allPlain, checkStmts, checkStmts, checkStmt_plain s, checkStmts_plain ss]

end

/-! ## Functions and programs -/

theorem registerFunctions_plain (fs : List FunctionDef) :
    registerFunctions (fs.map .plain) = registerFunctions fs := by
  induction fs with
  | nil => rfl
  | cons f fs ih =>
    rw [List.map_cons, registerFunctions, registerFunctions, ih]
    rfl

theorem checkBody_plain (f : FunctionDef) : checkBody f.plain = checkBody f := by
  have hbody : f.plain.body.statements = Stmt.allPlain f.body.statements := f.body.statements_plain
  rw [checkBody, checkBody, hbody, checkStmts_plain]
  rfl

theorem checkFunction_plain (f : FunctionDef) (registered : Bool) :
    checkFunction f.plain registered = checkFunction f registered := by
  rw [checkFunction, checkFunction, checkBody_plain]
  rfl

theorem checkDecls_plain (taken : List String) (ds : List Decl) :
    checkDecls taken (ds.map .plain) = checkDecls taken ds := by
  induction ds generalizing taken with
  | nil => rfl
  | cons d ds ih =>
    cases d with
    | func f =>
      rw [List.map_cons, Decl.plain, checkDecls, checkDecls, checkFunction_plain, ih]
      rfl
    | var d => rw [List.map_cons, Decl.plain, checkDecls, checkDecls, checkVarDecl_plain, ih]
    | unsupported => rfl

/-- Checking the plain form of a program is checking the program, from any checker. -/
theorem checkProgram_plain (p : Program) : checkProgram p.plain = checkProgram p := by
  have hdecls : p.plain.declarations = p.declarations.map .plain := rfl
  simp only [checkProgram, p.functions_plain, registerFunctions_plain, hdecls, checkDecls_plain]

end Checking

/-! ## Results -/

/-- Without its parentheses, and with its assignments that are statements by themselves, a program
shows exactly what it shows with them: the same functions, the same global variables and the same
diagnostics. If it cannot be checked, it fails in the same way. -/
theorem ofProgram_plain (p : Program) :
    (∀ n ∈ p.plain.nodes, n.IsPlain) ∧ Checked.ofProgram p.plain = Checked.ofProgram p := by
  refine ⟨fun n hn => Program.isPlain_of_mem_nodes hn, ?_⟩
  rw [Checked.ofProgram, Checked.ofProgram, Checking.checkProgram_plain]

end Sema
