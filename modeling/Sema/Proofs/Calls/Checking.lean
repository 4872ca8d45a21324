import Sema.Calls.Checking
import Sema.Proofs.Calls.Nesting
import Sema.Proofs.Checking.Faults

/-!
# The calls of checking a program

The calls of checking any program, put together by hand or not, end as the check does: at its first
fault, if it has one (`Checking.endingAll_programCalls`).
-/

namespace Sema

namespace Checking

/-- Calls that end at the first of some faults, if there is one. -/
def Meet (cs : List Calls) (faults : List CheckFault) : Prop :=
  Calls.endingAll cs = (firstError? faults).elim (.ok ()) fun e => .error (.check e)

namespace Meet

variable {cs ds : List Calls} {faults more : List CheckFault}

theorem nil : Meet [] [] := rfl

theorem append (h : Meet cs faults) (h' : Meet ds more) : Meet (cs ++ ds) (faults ++ more) := by
  rw [Meet, Calls.endingAll_append, h]
  cases faults with
  | nil => exact h'
  | cons fault faults => rfl

theorem call (h : Meet cs faults) : Meet [.call cs] faults := by
  rw [Meet, Calls.endingAll, Calls.ending, h]
  cases faults <;> rfl

theorem operator (op : String) : Meet (operatorCalls op) (operatorFaults op) := by
  rw [operatorCalls]
  cases hop : BinaryOp.ofText? op with
  | some known =>
    rw [operatorFaults_eq_nil_iff.mpr ⟨known, Typing.ofText?_eq_some_iff.mp hop⟩]
    exact nil
  | none =>
    have hunknown : ¬∃ known : BinaryOp, op = known.text := by
      rintro ⟨known, hknown⟩
      rw [Typing.ofText?_eq_some_iff.mpr hknown] at hop
      cases hop
    rw [operatorFaults_of_unknown hunknown]
    rfl

end Meet

/-! ## Expressions -/

mutual

theorem meet_exprCalls : ∀ e : Expr, Meet [exprCalls e] e.faults
  | .int _ _ | .float _ _ | .string _ _ | .name _ _ => .call .nil
  | .unsupported => rfl
  | .paren _ e | .not _ e => .call (meet_exprCalls e)
  | .binary _ op left right =>
    .call (.call (.append (meet_exprCalls left) (.append (meet_exprCalls right) (.operator op))))
  | .assign _ _ value => .call (.call (meet_exprCalls? value))
  | .call _ _ args => .call (.call (meet_exprsCalls args))

theorem meet_exprCalls? : ∀ value : Option Expr, Meet (exprCalls? value) (Expr.optionFaults value)
  | none => .nil
  | some e => meet_exprCalls e

theorem meet_exprsCalls : ∀ es : List Expr, Meet (exprsCalls es) (Expr.allFaults es)
  | [] => .nil
  | e :: es => .append (meet_exprCalls e) (meet_exprsCalls es)

end

/-! ## Statements -/

mutual

theorem meet_stmtCalls : ∀ s : Stmt, Meet [stmtCalls s] s.faults
  | .varDecl decl => .call (.call (meet_exprCalls? decl.value))
  | .assign _ _ value | .result _ value => .call (.call (meet_exprCalls? value))
  | .expr _ value => .call (meet_exprCalls value)
  | .block _ body => .call (meet_blockCalls body)
  | .ifThen _ condition thenBlock elseBlock =>
    .call (.append (meet_exprCalls condition)
      (.append (meet_blockCalls thenBlock) (meet_blockCalls? elseBlock)))
  | .whileLoop _ condition body => .call (.append (meet_exprCalls condition) (meet_blockCalls body))
  | .forLoop _ init condition update body =>
    .call (.append (meet_stmtCalls? init) (.append (meet_exprCalls? condition)
      (.append (meet_stmtCalls? update) (meet_blockCalls body))))
  | .unsupported => rfl

theorem meet_stmtCalls? : ∀ s : Option Stmt, Meet (stmtCalls? s) (Stmt.optionFaults s)
  | none => .nil
  | some s => meet_stmtCalls s

theorem meet_blockCalls : ∀ b : Block, Meet [blockCalls b] b.faults
  | .mk _ statements => .call (meet_stmtsCalls statements)

theorem meet_blockCalls? : ∀ b : Option Block, Meet (blockCalls? b) (Block.optionFaults b)
  | none => .nil
  | some b => meet_blockCalls b

theorem meet_stmtsCalls : ∀ ss : List Stmt, Meet (stmtsCalls ss) (Stmt.allFaults ss)
  | [] => .nil
  | s :: ss => .append (meet_stmtCalls s) (meet_stmtsCalls ss)

end

/-! ## Programs -/

theorem meet_declCalls (d : Decl) : Meet [declCalls d] d.faults := by
  cases d with
  | func f =>
    show Meet [.call (stmtsCalls f.body.statements)] f.body.faults
    cases f.body with
    | mk loc statements => exact .call (meet_stmtsCalls statements)
  | var d => exact .call (meet_exprCalls? d.value)
  | unsupported => rfl

theorem meet_programCalls (p : Program) : Meet [programCalls p] p.faults := by
  have hdecls : Meet (p.declarations.map declCalls) (p.declarations.flatMap Decl.faults) := by
    induction p.declarations with
    | nil => exact .nil
    | cons d ds ih => exact .append (meet_declCalls d) ih
  exact .call (.call hdecls)

/-- The calls of checking a program end as the check does. -/
theorem endingAll_programCalls (p : Program) :
    Calls.endingAll [programCalls p] =
      ((Checked.ofProgram p).map fun _ => ()).mapError .check := by
  have hstops := checkProgram_stops p Checker.empty
  rw [meet_programCalls p, Checked.ofProgram]
  rcases hrun : (checkProgram p).run Checker.empty with ⟨_ | _, c⟩
  · rw [(hstops _).mp (by rw [hrun])]
    rfl
  · cases hfault : firstError? p.faults with
    | none => rfl
    | some e =>
      have := (hstops e).mpr hfault
      rw [hrun] at this
      cases this

end Checking

end Sema
