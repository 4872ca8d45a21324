import Sema.Calls.Reading
import Sema.Proofs.Calls.Nesting
import Sema.Proofs.Syntax.Outcomes

/-!
# The calls of reading a derivation

The calls of reading a derivation end as the reading does (`SpellsProgram.endAs`), which is shown
along the relations between trees and what they spell.
-/

namespace Sema

namespace Reading

variable {α β : Type} {cs ds : List Calls} {x : Reading α}

/-- Calls end as a reading does: with its error, if it has one. -/
def EndAs (cs : List Calls) (x : Reading α) : Prop :=
  Calls.endingAll cs = (x.map fun _ => ()).mapError .read

namespace EndAs

theorem ok {a : α} : EndAs [] (.ok a) := rfl

theorem bind {f : α → Reading β} (hx : EndAs cs x) (hf : ∀ a, EndAs ds (f a)) :
    EndAs (cs ++ ds) (x >>= f) := by
  rw [EndAs, Calls.endingAll_append, hx]
  cases x with
  | error e => rfl
  | ok a => exact hf a

theorem result {f : α → β} (hx : EndAs cs x) : EndAs cs (x >>= fun a => .ok (f a)) := by
  have h := hx.bind (f := fun a => .ok (f a)) fun _ => .ok
  rwa [List.append_nil] at h

theorem call (hx : EndAs cs x) : EndAs [.call cs] x := by
  rw [EndAs, Calls.endingAll, Calls.ending, hx]
  cases x <;> rfl

theorem listed {own : Bool} (hx : EndAs cs x) : EndAs (Calls.listed own cs) x := by
  cases own with
  | false => exact hx
  | true => exact hx.call

theorem integer (text : String) : EndAs [integerCalls text] (Reading.integer text) := by
  rw [EndAs, integerCalls]
  cases Reading.integer text <;> rfl

end EndAs

theorem stmtCalls_form {form : StmtForm} (h : form ≠ .varDecl ∧ form ≠ .block) (own : Bool)
    (t : Tree) : stmtCalls own (.node (.stmt form) [t]) = stmtCalls own t := by
  cases form <;> simp_all [stmtCalls]

end Reading

open Reading (EndAs)

/-! ## How the calls end -/

mutual

theorem SpellsExpr.endAs {own : Bool} : ∀ {t : Tree} {e : Expr}, SpellsExpr t e →
    EndAs [Reading.exprCalls own t] (Reading.expr t)
  | _, _, .expr part => part.endAs
  | _, _, .assignNone part => part.endAs
  | _, _, .operand part => part.endAs
  | _, _, .unaryAtom part => part.endAs
  | _, _, .assignTo value => .call value.endAs.result
  | _, _, .binary left right => .call (.bind left.endAs fun _ => right.endAs.result)
  | _, _, .not operand => .call operand.endAs.result
  | _, _, .int => .result (.integer _)
  | _, _, .float _ => .call .ok
  | _, _, .string _ => .call .ok
  | _, _, .name => .call .ok
  | _, _, .paren value => .call value.endAs.result
  | _, _, .call arguments => .call arguments.endAs.listed.result
  | _, _, .callEmpty => .call .ok

theorem SpellsArgs.endAs {own : Bool} : ∀ {t : Tree} {es : List Expr}, SpellsArgs t es →
    EndAs (Reading.argsCalls own t) (Reading.args t)
  | _, _, .many first rest => .bind first.endAs fun _ => rest.endAs.result
  | _, _, .one only => only.endAs.result
  | _, _, .tailFirst first => first.endAs.result
  | _, _, .tailMore more last => .bind more.endAs fun _ => last.endAs.result

end

theorem SpellsType.endAs {t : Tree} {type : String} (h : SpellsType t type) :
    EndAs [.call []] (Reading.typeName t) := by
  cases h
  exact .call .ok

section Source

variable {own : Bool} {source : List Char} {t : Tree}

theorem SpellsVar.endAs {d : VarDecl} (h : SpellsVar source t d) :
    EndAs [Reading.varSpecCalls own t] (Reading.varSpec source t) := by
  cases h with
  | plain typed => exact .call typed.endAs.result
  | constant typed => exact .call typed.endAs.result
  | plainInit typed value => exact .call (.bind value.endAs fun _ => typed.endAs.result)
  | constantInit typed value => exact .call (.bind value.endAs fun _ => typed.endAs.result)

theorem SpellsInit.endAs {init : Option Stmt} (h : SpellsInit source t init) :
    EndAs [Reading.forInitCalls own t] (Reading.forInit source t) := by
  cases h with
  | var spec => exact .call spec.endAs.result
  | expr value _ => exact .call value.endAs.result
  | empty => exact .call .ok

theorem SpellsCond.endAs {condition : Option Expr} (h : SpellsCond t condition) :
    EndAs [Reading.forCondCalls own t] (Reading.forCond t) := by
  cases h with
  | expr value => exact .call value.endAs.result
  | empty => exact .call .ok

theorem SpellsUpdate.endAs {update : Option Stmt} (h : SpellsUpdate t update) :
    EndAs [Reading.forUpdateCalls own t] (Reading.forUpdate t) := by
  cases h with
  | expr value _ => exact .call (.call value.endAs.result)
  | empty => exact .call (.call .ok)

end Source

mutual

theorem SpellsStmt.endAs {own : Bool} {source : List Char} : ∀ {t : Tree} {s : Stmt},
    SpellsStmt source t s → EndAs [Reading.stmtCalls own t] (Reading.stmt source t)
  | _, _, .varDecl spec => .call spec.endAs.result
  | _, _, .block body => .call body.endAs.result
  | _, _, .form other part => by
    rw [Reading.stmtCalls_form other own, Reading.stmt_form other]
    exact part.endAs
  | _, _, .expr value _ => .call value.endAs.result
  | _, _, .ifThen condition thenBlock =>
    .call (.bind condition.endAs fun _ => thenBlock.endAs.result)
  | _, _, .ifElse condition thenBlock elseBlock =>
    .call (.bind elseBlock.endAs fun _ => .bind condition.endAs fun _ => thenBlock.endAs.result)
  | _, _, .ifElseIf condition thenBlock elseIf =>
    .call (.bind elseIf.endAs fun _ => .bind condition.endAs fun _ => thenBlock.endAs.result)
  | _, _, .whileLoop condition loop => .call (.bind condition.endAs fun _ => loop.endAs.result)
  | _, _, .forLoop start test step loop =>
    .call (.bind start.endAs fun _ => .bind test.endAs fun _ => .bind step.endAs fun _ =>
      loop.endAs.result)
  | _, _, .returnValue value => .call value.endAs.result
  | _, _, .returnBare => .call .ok

theorem SpellsBlock.endAs {own : Bool} {source : List Char} : ∀ {t : Tree} {b : Block},
    SpellsBlock source t b → EndAs [Reading.blockCalls own t] (Reading.block source t)
  | _, _, .full body => .call body.endAs.listed.result
  | _, _, .empty => .call (.listed .ok)

theorem SpellsStmts.endAs {own : Bool} {source : List Char} : ∀ {t : Tree} {ss : List Stmt},
    SpellsStmts source t ss → EndAs (Reading.stmtsCalls own t) (Reading.stmts source t)
  | _, _, .first only => only.endAs.result
  | _, _, .more before last => .bind before.endAs fun _ => last.endAs.result

end

section Source

variable {own : Bool} {source : List Char} {t : Tree}

theorem SpellsParam.endAs {p : Param} (h : SpellsParam t p) :
    EndAs [.call [.call []]] (Reading.param t) := by
  cases h with
  | mk typed => exact .call typed.endAs.result

theorem SpellsParams.endAs {ps : List Param} (h : SpellsParams t ps) :
    EndAs (Reading.paramsCalls t) (Reading.params t) := by
  induction h with
  | many first _ ih => exact .bind first.endAs fun _ => ih.result
  | one only => exact only.endAs.result
  | tailFirst first => exact first.endAs.result
  | tailMore _ last ih => exact .bind ih fun _ => last.endAs.result

theorem SpellsFunction.endAs {f : FunctionDef} (h : SpellsFunction source t f) :
    EndAs [Reading.funcDefCalls own t] (Reading.funcDef source t) := by
  cases h with
  | params type parameters block =>
    cases type with
    | typed typed =>
      refine .call (typed.endAs.bind fun _ => ?_)
      exact .bind parameters.endAs.listed fun _ => block.endAs.result
    | void => exact .call (.bind parameters.endAs.listed fun _ => block.endAs.result)
    | absent => exact .call (.bind parameters.endAs.listed fun _ => block.endAs.result)
  | noParams type block =>
    cases type with
    | typed typed => exact .call (.bind typed.endAs fun _ => block.endAs.result)
    | void => exact .call block.endAs.result
    | absent => exact .call block.endAs.result

theorem SpellsDecl.endAs {d : Decl} (h : SpellsDecl source t d) :
    EndAs [Reading.declCalls own t] (Reading.decl source t) := by
  cases h with
  | var spec => exact spec.endAs.result
  | func function => exact function.endAs.result

theorem SpellsDecls.endAs {ds : List Decl} (h : SpellsDecls source t ds) :
    EndAs (Reading.declsCalls own t) (Reading.decls source t) := by
  induction h with
  | first only => exact only.endAs.result
  | more _ last ih => exact .bind ih fun _ => last.endAs.result

/-- The calls of reading the tree of a program end as the reading does. -/
theorem SpellsProgram.endAs {p : Program} (h : SpellsProgram source t p) :
    EndAs [Reading.programCalls own t] (Reading.program source t) := by
  cases h with
  | decls declarations => exact .call declarations.endAs.result
  | empty => exact .call .ok

end Source

end Sema
