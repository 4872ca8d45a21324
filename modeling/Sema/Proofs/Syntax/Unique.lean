import Sema.Proofs.Syntax.Reading

/-!
# A tree spells one thing

The relations between trees and what they spell are functional, however long the literals are: one
lemma for each of them, up to statements and blocks.
-/

namespace Sema

/-! ## Expressions -/

mutual

theorem SpellsExpr.unique : ∀ {t : Tree} {e e' : Expr}, SpellsExpr t e → SpellsExpr t e' → e = e'
  | _, _, _, .expr part, .expr part' => part.unique part'
  | _, _, _, .assignNone part, .assignNone part' => part.unique part'
  | _, _, _, .operand part, .operand part' => part.unique part'
  | _, _, _, .unaryAtom part, .unaryAtom part' => part.unique part'
  | _, _, _, .assignTo value, .assignTo value' => by rw [value.unique value']
  | _, _, _, .binary left right, .binary left' right' => by
    rw [left.unique left', right.unique right']
  | _, _, _, .not operand, .not operand' => by rw [operand.unique operand']
  | _, _, _, .int, .int => rfl
  | _, _, _, .float nearest, .float nearest' => by
    rw [Double.spells_iff_double.mp nearest, Double.spells_iff_double.mp nearest']
  | _, _, _, .string quoted, .string quoted' => by
    rw [inside_iff_unquoted.mp quoted, inside_iff_unquoted.mp quoted']
  | _, _, _, .name, .name => rfl
  | _, _, _, .paren value, .paren value' => by rw [value.unique value']
  | _, _, _, .call arguments, .call arguments' => by rw [arguments.unique arguments']
  | _, _, _, .callEmpty, .callEmpty => rfl

theorem SpellsArgs.unique : ∀ {t : Tree} {es es' : List Expr}, SpellsArgs t es →
    SpellsArgs t es' → es = es'
  | _, _, _, .many first rest, .many first' rest' => by rw [first.unique first', rest.unique rest']
  | _, _, _, .one only, .one only' => by rw [only.unique only']
  | _, _, _, .tailFirst first, .tailFirst first' => by rw [first.unique first']
  | _, _, _, .tailMore more last, .tailMore more' last' => by
    rw [more.unique more', last.unique last']

end

/-! ## Statements -/

theorem Performs.unique {e : Expr} {s s' : Stmt} (h : Performs e s) (h' : Performs e s') : s = s' :=
  h.reading.symm.trans h'.reading

theorem SpellsType.unique {t : Tree} {a b : String} (h : SpellsType t a) (h' : SpellsType t b) :
    a = b := by
  cases h
  cases h'
  rfl

theorem SpellsVar.unique {source : List Char} {t : Tree} {d d' : VarDecl}
    (h : SpellsVar source t d) (h' : SpellsVar source t d') : d = d' := by
  cases h with
  | plain typed =>
    cases h' with
    | plain typed' => rw [typed.unique typed']
  | constant typed =>
    cases h' with
    | constant typed' => rw [typed.unique typed']
  | plainInit typed value =>
    cases h' with
    | plainInit typed' value' => rw [typed.unique typed', value.unique value']
  | constantInit typed value =>
    cases h' with
    | constantInit typed' value' => rw [typed.unique typed', value.unique value']

theorem SpellsInit.unique {source : List Char} {t : Tree} {i i' : Option Stmt}
    (h : SpellsInit source t i) (h' : SpellsInit source t i') : i = i' := by
  cases h with
  | var spec =>
    cases h' with
    | var spec' => rw [spec.unique spec']
  | expr value performs =>
    cases h' with
    | expr value' performs' =>
      cases value.unique value'
      rw [performs.unique performs']
  | empty =>
    cases h'
    rfl

theorem SpellsCond.unique {t : Tree} {c c' : Option Expr} (h : SpellsCond t c)
    (h' : SpellsCond t c') : c = c' := by
  cases h with
  | expr value =>
    cases h' with
    | expr value' => rw [value.unique value']
  | empty =>
    cases h'
    rfl

theorem SpellsUpdate.unique {t : Tree} {u u' : Option Stmt} (h : SpellsUpdate t u)
    (h' : SpellsUpdate t u') : u = u' := by
  cases h with
  | expr value performs =>
    cases h' with
    | expr value' performs' =>
      cases value.unique value'
      rw [performs.unique performs']
  | empty =>
    cases h'
    rfl

mutual

theorem SpellsStmt.unique {source : List Char} : ∀ {t : Tree} {s s' : Stmt},
    SpellsStmt source t s → SpellsStmt source t s' → s = s'
  | _, _, _, .varDecl spec, .varDecl spec' => by rw [spec.unique spec']
  | _, _, _, .block body, .block body' => by rw [body.unique body']
  | _, _, _, .form _ part, .form _ part' => part.unique part'
  | _, _, _, .varDecl _, .form other _ => absurd rfl other.1
  | _, _, _, .form other _, .varDecl _ => absurd rfl other.1
  | _, _, _, .block _, .form other _ => absurd rfl other.2
  | _, _, _, .form other _, .block _ => absurd rfl other.2
  | _, _, _, .expr value performs, .expr value' performs' => by
    cases value.unique value'
    exact performs.unique performs'
  | _, _, _, .ifThen condition yes, .ifThen condition' yes' => by
    rw [condition.unique condition', yes.unique yes']
  | _, _, _, .ifElse condition yes no, .ifElse condition' yes' no' => by
    rw [condition.unique condition', yes.unique yes', no.unique no']
  | _, _, _, .ifElseIf condition yes no, .ifElseIf condition' yes' no' => by
    rw [condition.unique condition', yes.unique yes', no.unique no']
  | _, _, _, .whileLoop condition loop, .whileLoop condition' loop' => by
    rw [condition.unique condition', loop.unique loop']
  | _, _, _, .forLoop start test step loop, .forLoop start' test' step' loop' => by
    rw [start.unique start', test.unique test', step.unique step', loop.unique loop']
  | _, _, _, .returnValue value, .returnValue value' => by rw [value.unique value']
  | _, _, _, .returnBare, .returnBare => rfl

theorem SpellsBlock.unique {source : List Char} : ∀ {t : Tree} {b b' : Block},
    SpellsBlock source t b → SpellsBlock source t b' → b = b'
  | _, _, _, .full body, .full body' => by rw [body.unique body']
  | _, _, _, .empty, .empty => rfl

theorem SpellsStmts.unique {source : List Char} : ∀ {t : Tree} {ss ss' : List Stmt},
    SpellsStmts source t ss → SpellsStmts source t ss' → ss = ss'
  | _, _, _, .first only, .first only' => by rw [only.unique only']
  | _, _, _, .more before last, .more before' last' => by
    rw [before.unique before', last.unique last']

end

end Sema
