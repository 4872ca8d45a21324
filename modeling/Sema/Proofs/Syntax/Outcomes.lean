import Sema.Proofs.Grammar.First
import Sema.Proofs.Parsing.Programs
import Sema.Proofs.Syntax.Supported

/-!
# What reading a derivation can come to

A derivation that spells something is read, unless it has an integer literal that is too long, and
then the error is on such a literal (`Limited`). No other error is left: no rule finds parts that it
does not ask for. What is read has supported parts and known operators only.

Both are shown along the relations between trees and what they spell, of which every derivation has
one. For programs: `exists_reading_iff`, `exists_long_of_reading_error` and
`supported_of_reading`.
-/

namespace Sema

/-! ## Integer literals of a tree -/

namespace Tree

mutual

/-- The tokens that are read as integers, from left to right. -/
@[simp] def literals : Tree → List Token
  | leaf _ => []
  | node rule children => if rule = .intLit then leavesAll children else literalsAll children

@[simp] def literalsAll : List Tree → List Token
  | [] => []
  | t :: ts => literals t ++ literalsAll ts

end

theorem eq_intLit_of_mem_body {r : Rule} (h : .terminal .intLit ∈ r.body) : r = .intLit := by
  have hall := Rule.of_all_rules (p := fun r => decide (.terminal .intLit ∉ r.body ∨ r = .intLit))
    (by decide +kernel) r
  simpa [h] using hall

mutual

theorem literals_eq : ∀ {t : Tree}, t.WellFormed → t.symbol ≠ .terminal .intLit →
    t.literals = t.leaves.filter (·.kind = .intLit)
  | .leaf token, _, hsymbol => by
    have hkind : token.kind ≠ .intLit := fun h => hsymbol (congrArg GrammarSymbol.terminal h)
    simp [leaves, hkind]
  | .node r ts, ht, _ => by
    rw [literals, leaves]
    by_cases hr : r = .intLit
    · subst hr
      obtain ⟨t, rfl, hsymbol⟩ := List.map_eq_singleton_iff.mp ht.1
      cases t with
      | leaf token =>
        have hkind : token.kind = .intLit := GrammarSymbol.terminal.inj hsymbol
        simp [leavesAll, leaves, hkind]
      | node r ts => cases hsymbol
    · rw [if_neg hr]
      refine literalsAll_eq ht.2 fun hmem => hr (eq_intLit_of_mem_body ?_)
      exact ht.1 ▸ hmem

theorem literalsAll_eq : ∀ {ts : List Tree}, AllWellFormed ts →
    .terminal .intLit ∉ ts.map symbol → literalsAll ts = (leavesAll ts).filter (·.kind = .intLit)
  | [], _, _ => rfl
  | t :: ts, hts, hsymbols => by
    rw [List.map_cons, List.mem_cons, not_or] at hsymbols
    rw [literalsAll, leavesAll, List.filter_append, literals_eq hts.1 (Ne.symm hsymbols.1),
      literalsAll_eq hts.2 hsymbols.2]

end

end Tree

/-! ## Readings that fail on long literals only -/

namespace Reading

variable {α β : Type}

/-- Reading fails exactly where one of the given integer literals is too long, and on such a
literal. -/
structure Limited (ls : List Token) (x : Reading α) : Prop where
  short : ∀ a, x = .ok a → ∀ token ∈ ls, token.text.length ≤ ReadError.maxDigits
  long : ∀ e, x = .error e →
    ∃ token ∈ ls, ReadError.maxDigits < token.text.length ∧ e = .integerTooLong token.text.length

namespace Limited

variable {ls ls' : List Token} {x : Reading α}

theorem ok {a : α} : Limited [] (.ok a) where
  short := by simp
  long := by simp

theorem of_mem_iff (h : ∀ token, token ∈ ls' ↔ token ∈ ls) (hx : Limited ls x) :
    Limited ls' x where
  short a ha token hmem := hx.short a ha token ((h token).mp hmem)
  long e he := by
    obtain ⟨token, hmem, hlong⟩ := hx.long e he
    exact ⟨token, (h token).mpr hmem, hlong⟩

theorem bind {f : α → Reading β} (hx : Limited ls x) (hf : ∀ a, Limited ls' (f a)) :
    Limited (ls ++ ls') (x >>= f) := by
  cases x with
  | error e =>
    refine ⟨fun b hb => (nomatch hb), fun e' he' => ?_⟩
    obtain rfl := Except.error.inj he'
    obtain ⟨token, hmem, hlong⟩ := hx.long e rfl
    exact ⟨token, List.mem_append_left _ hmem, hlong⟩
  | ok a =>
    refine ⟨fun b hb token hmem => ?_, fun e he => ?_⟩
    · rcases List.mem_append.mp hmem with hmem | hmem
      · exact hx.short a rfl token hmem
      · exact (hf a).short b hb token hmem
    · obtain ⟨token, hmem, hlong⟩ := (hf a).long e he
      exact ⟨token, List.mem_append_right _ hmem, hlong⟩

theorem integer (token : Token) : Limited [token] (Reading.integer token.text) := by
  rw [Reading.integer, String.length_toList]
  by_cases hshort : token.text.length ≤ ReadError.maxDigits
  · rw [if_pos hshort]
    exact ⟨by simpa using hshort, by simp⟩
  · rw [if_neg hshort]
    refine ⟨by simp, fun e he => ?_⟩
    obtain rfl := Except.error.inj he
    exact ⟨token, List.mem_cons_self, Nat.lt_of_not_le hshort, rfl⟩

end Limited

end Reading

open Reading (Limited)

mutual

theorem SpellsExpr.limited : ∀ {t : Tree} {e : Expr}, SpellsExpr t e →
    Limited t.literals (Reading.expr t)
  | _, _, .expr part => .of_mem_iff (by simp) part.limited
  | _, _, .assignNone part => .of_mem_iff (by simp) part.limited
  | _, _, .operand part => .of_mem_iff (by simp) part.limited
  | _, _, .unaryAtom part => .of_mem_iff (by simp) part.limited
  | _, _, .assignTo value => .of_mem_iff (by simp) (.bind value.limited fun _ => .ok)
  | _, _, .binary left right =>
    .of_mem_iff (by simp) (.bind left.limited fun _ => .bind right.limited fun _ => .ok)
  | _, _, .not operand => .of_mem_iff (by simp) (.bind operand.limited fun _ => .ok)
  | _, _, .int =>
    .of_mem_iff (by simp [Tree.leavesAll, Tree.leaves]) (.bind (.integer _) fun _ => .ok)
  | _, _, .float _ => .of_mem_iff (by simp) .ok
  | _, _, .string _ => .of_mem_iff (by simp) .ok
  | _, _, .name => .of_mem_iff (by simp) .ok
  | _, _, .paren value => .of_mem_iff (by simp) (.bind value.limited fun _ => .ok)
  | _, _, .call arguments => .of_mem_iff (by simp) (.bind arguments.limited fun _ => .ok)
  | _, _, .callEmpty => .of_mem_iff (by simp) .ok

theorem SpellsArgs.limited : ∀ {t : Tree} {es : List Expr}, SpellsArgs t es →
    Limited t.literals (Reading.args t)
  | _, _, .many first rest =>
    .of_mem_iff (by simp) (.bind first.limited fun _ => .bind rest.limited fun _ => .ok)
  | _, _, .one only => .of_mem_iff (by simp) (.bind only.limited fun _ => .ok)
  | _, _, .tailFirst first => .of_mem_iff (by simp) (.bind first.limited fun _ => .ok)
  | _, _, .tailMore more last =>
    .of_mem_iff (by simp) (.bind more.limited fun _ => .bind last.limited fun _ => .ok)

end

theorem SpellsType.limited {t : Tree} {type : String} (h : SpellsType t type) :
    Limited t.literals (Reading.typeName t) := by
  cases h
  exact .of_mem_iff (by simp) .ok

theorem SpellsVar.limited {source : List Char} {t : Tree} {d : VarDecl}
    (h : SpellsVar source t d) : Limited t.literals (Reading.varSpec source t) := by
  cases h with
  | plain typed => exact .of_mem_iff (by simp) (.bind typed.limited fun _ => .ok)
  | constant typed => exact .of_mem_iff (by simp) (.bind typed.limited fun _ => .ok)
  | plainInit typed value =>
    exact .of_mem_iff (by simp [or_comm])
      (.bind value.limited fun _ => .bind typed.limited fun _ => .ok)
  | constantInit typed value =>
    exact .of_mem_iff (by simp [or_comm])
      (.bind value.limited fun _ => .bind typed.limited fun _ => .ok)

theorem SpellsInit.limited {source : List Char} {t : Tree} {init : Option Stmt}
    (h : SpellsInit source t init) : Limited t.literals (Reading.forInit source t) := by
  cases h with
  | var spec => exact .of_mem_iff (by simp) (.bind spec.limited fun _ => .ok)
  | expr value _ => exact .of_mem_iff (by simp) (.bind value.limited fun _ => .ok)
  | empty => exact .of_mem_iff (by simp) .ok

theorem SpellsCond.limited {t : Tree} {condition : Option Expr} (h : SpellsCond t condition) :
    Limited t.literals (Reading.forCond t) := by
  cases h with
  | expr value => exact .of_mem_iff (by simp) (.bind value.limited fun _ => .ok)
  | empty => exact .of_mem_iff (by simp) .ok

theorem SpellsUpdate.limited {t : Tree} {update : Option Stmt} (h : SpellsUpdate t update) :
    Limited t.literals (Reading.forUpdate t) := by
  cases h with
  | expr value _ => exact .of_mem_iff (by simp) (.bind value.limited fun _ => .ok)
  | empty => exact .of_mem_iff (by simp) .ok

mutual

theorem SpellsStmt.limited {source : List Char} : ∀ {t : Tree} {s : Stmt}, SpellsStmt source t s →
    Limited t.literals (Reading.stmt source t)
  | _, _, .varDecl spec => .of_mem_iff (by simp) (.bind spec.limited fun _ => .ok)
  | _, _, .block body => .of_mem_iff (by simp) (.bind body.limited fun _ => .ok)
  | _, _, .form other part => by
    rw [Reading.stmt_form other]
    exact .of_mem_iff (by simp) part.limited
  | _, _, .expr value _ => .of_mem_iff (by simp) (.bind value.limited fun _ => .ok)
  | _, _, .ifThen condition thenBlock =>
    .of_mem_iff (by simp) (.bind condition.limited fun _ => .bind thenBlock.limited fun _ => .ok)
  -- the part after `else` is read first
  | _, _, .ifElse condition thenBlock elseBlock =>
    .of_mem_iff (by simp [or_assoc, or_comm]) (.bind elseBlock.limited fun _ =>
      .bind condition.limited fun _ => .bind thenBlock.limited fun _ => .ok)
  | _, _, .ifElseIf condition thenBlock elseIf =>
    .of_mem_iff (by simp [or_assoc, or_comm]) (.bind elseIf.limited fun _ =>
      .bind condition.limited fun _ => .bind thenBlock.limited fun _ => .ok)
  | _, _, .whileLoop condition loop =>
    .of_mem_iff (by simp) (.bind condition.limited fun _ => .bind loop.limited fun _ => .ok)
  | _, _, .forLoop start test step loop =>
    .of_mem_iff (by simp) (.bind start.limited fun _ => .bind test.limited fun _ =>
      .bind step.limited fun _ => .bind loop.limited fun _ => .ok)
  | _, _, .returnValue value => .of_mem_iff (by simp) (.bind value.limited fun _ => .ok)
  | _, _, .returnBare => .of_mem_iff (by simp) .ok

theorem SpellsBlock.limited {source : List Char} : ∀ {t : Tree} {b : Block},
    SpellsBlock source t b → Limited t.literals (Reading.block source t)
  | _, _, .full body => .of_mem_iff (by simp) (.bind body.limited fun _ => .ok)
  | _, _, .empty => .of_mem_iff (by simp) .ok

theorem SpellsStmts.limited {source : List Char} : ∀ {t : Tree} {ss : List Stmt},
    SpellsStmts source t ss → Limited t.literals (Reading.stmts source t)
  | _, _, .first only => .of_mem_iff (by simp) (.bind only.limited fun _ => .ok)
  | _, _, .more before last =>
    .of_mem_iff (by simp) (.bind before.limited fun _ => .bind last.limited fun _ => .ok)

end

theorem SpellsParam.limited {t : Tree} {p : Param} (h : SpellsParam t p) :
    Limited t.literals (Reading.param t) := by
  cases h with
  | mk typed => exact .of_mem_iff (by simp) (.bind typed.limited fun _ => .ok)

theorem SpellsParams.limited {t : Tree} {ps : List Param} (h : SpellsParams t ps) :
    Limited t.literals (Reading.params t) := by
  induction h with
  | many first _ ih =>
    exact .of_mem_iff (by simp) (.bind first.limited fun _ => .bind ih fun _ => .ok)
  | one only => exact .of_mem_iff (by simp) (.bind only.limited fun _ => .ok)
  | tailFirst first => exact .of_mem_iff (by simp) (.bind first.limited fun _ => .ok)
  | tailMore _ last ih =>
    exact .of_mem_iff (by simp) (.bind ih fun _ => .bind last.limited fun _ => .ok)

theorem SpellsFunction.limited {source : List Char} {t : Tree} {f : FunctionDef}
    (h : SpellsFunction source t f) : Limited t.literals (Reading.funcDef source t) := by
  cases h with
  | params type parameters block =>
    cases type with
    | typed typed =>
      exact .of_mem_iff (by simp) (.bind typed.limited fun _ =>
        .bind parameters.limited fun _ => .bind block.limited fun _ => .ok)
    | void =>
      exact .of_mem_iff (by simp)
        (.bind parameters.limited fun _ => .bind block.limited fun _ => .ok)
    | absent =>
      exact .of_mem_iff (by simp)
        (.bind parameters.limited fun _ => .bind block.limited fun _ => .ok)
  | noParams type block =>
    cases type with
    | typed typed =>
      exact .of_mem_iff (by simp) (.bind typed.limited fun _ => .bind block.limited fun _ => .ok)
    | void => exact .of_mem_iff (by simp) (.bind block.limited fun _ => .ok)
    | absent => exact .of_mem_iff (by simp) (.bind block.limited fun _ => .ok)

theorem SpellsDecl.limited {source : List Char} {t : Tree} {d : Decl} (h : SpellsDecl source t d) :
    Limited t.literals (Reading.decl source t) := by
  cases h with
  | var spec => exact .of_mem_iff (by simp) (.bind spec.limited fun _ => .ok)
  | func function => exact .of_mem_iff (by simp) (.bind function.limited fun _ => .ok)

theorem SpellsDecls.limited {source : List Char} {t : Tree} {ds : List Decl}
    (h : SpellsDecls source t ds) : Limited t.literals (Reading.decls source t) := by
  induction h with
  | first only => exact .of_mem_iff (by simp) (.bind only.limited fun _ => .ok)
  | more _ last ih =>
    exact .of_mem_iff (by simp) (.bind ih fun _ => .bind last.limited fun _ => .ok)

theorem SpellsProgram.limited {source : List Char} {t : Tree} {p : Program}
    (h : SpellsProgram source t p) : Limited t.literals (Reading.program source t) := by
  cases h with
  | decls declarations => exact .of_mem_iff (by simp) (.bind declarations.limited fun _ => .ok)
  | empty => exact .of_mem_iff (by simp) .ok

/-! ## What is read is supported -/

theorem Expr.allSupported_append {es es' : List Expr} :
    Expr.AllSupported (es ++ es') ↔ Expr.AllSupported es ∧ Expr.AllSupported es' := by
  induction es with
  | nil => simp [Expr.AllSupported]
  | cons e es ih => simp [Expr.AllSupported, ih, and_assoc]

theorem Stmt.allSupported_append {ss ss' : List Stmt} :
    Stmt.AllSupported (ss ++ ss') ↔ Stmt.AllSupported ss ∧ Stmt.AllSupported ss' := by
  induction ss with
  | nil => simp [Stmt.AllSupported]
  | cons s ss ih => simp [Stmt.AllSupported, ih, and_assoc]

mutual

theorem SpellsExpr.supported : ∀ {t : Tree} {e : Expr}, SpellsExpr t e → e.Supported
  | _, _, .expr part => part.supported
  | _, _, .assignNone part => part.supported
  | _, _, .operand part => part.supported
  | _, _, .unaryAtom part => part.supported
  | _, _, .assignTo value => value.supported
  | _, _, .binary left right => ⟨left.supported, right.supported, _, rfl⟩
  | _, _, .not operand => operand.supported
  | _, _, .int => trivial
  | _, _, .float _ => trivial
  | _, _, .string _ => trivial
  | _, _, .name => trivial
  | _, _, .paren value => value.supported
  | _, _, .call arguments => arguments.supported
  | _, _, .callEmpty => trivial

theorem SpellsArgs.supported : ∀ {t : Tree} {es : List Expr}, SpellsArgs t es →
    Expr.AllSupported es
  | _, _, .many first rest => ⟨first.supported, rest.supported⟩
  | _, _, .one only => ⟨only.supported, trivial⟩
  | _, _, .tailFirst first => ⟨first.supported, trivial⟩
  | _, _, .tailMore more last =>
    Expr.allSupported_append.mpr ⟨more.supported, last.supported, trivial⟩

end

theorem Performs.supported {e : Expr} {s : Stmt} (h : Performs e s) (he : e.Supported) :
    s.Supported := by
  cases h <;> exact he

theorem SpellsVar.supported {source : List Char} {t : Tree} {d : VarDecl}
    (h : SpellsVar source t d) : Expr.OptionSupported d.value := by
  cases h with
  | plain _ => trivial
  | constant _ => trivial
  | plainInit _ value => exact value.supported
  | constantInit _ value => exact value.supported

theorem SpellsInit.supported {source : List Char} {t : Tree} {init : Option Stmt}
    (h : SpellsInit source t init) : Stmt.OptionSupported init := by
  cases h with
  | var spec => exact spec.supported
  | expr value performs => exact performs.supported value.supported
  | empty => trivial

theorem SpellsCond.supported {t : Tree} {condition : Option Expr} (h : SpellsCond t condition) :
    Expr.OptionSupported condition := by
  cases h with
  | expr value => exact value.supported
  | empty => trivial

theorem SpellsUpdate.supported {t : Tree} {update : Option Stmt} (h : SpellsUpdate t update) :
    Stmt.OptionSupported update := by
  cases h with
  | expr value performs => exact performs.supported value.supported
  | empty => trivial

mutual

theorem SpellsStmt.supported {source : List Char} : ∀ {t : Tree} {s : Stmt},
    SpellsStmt source t s → s.Supported
  | _, _, .varDecl spec => spec.supported
  | _, _, .block body => body.supported
  | _, _, .form _ part => part.supported
  | _, _, .expr value performs => performs.supported value.supported
  | _, _, .ifThen condition thenBlock => ⟨condition.supported, thenBlock.supported, trivial⟩
  | _, _, .ifElse condition thenBlock elseBlock =>
    ⟨condition.supported, thenBlock.supported, elseBlock.supported⟩
  | _, _, .ifElseIf condition thenBlock elseIf =>
    ⟨condition.supported, thenBlock.supported, elseIf.supported, trivial⟩
  | _, _, .whileLoop condition loop => ⟨condition.supported, loop.supported⟩
  | _, _, .forLoop start test step loop =>
    ⟨start.supported, test.supported, step.supported, loop.supported⟩
  | _, _, .returnValue value => value.supported
  | _, _, .returnBare => trivial

theorem SpellsBlock.supported {source : List Char} : ∀ {t : Tree} {b : Block},
    SpellsBlock source t b → b.Supported
  | _, _, .full body => body.supported
  | _, _, .empty => trivial

theorem SpellsStmts.supported {source : List Char} : ∀ {t : Tree} {ss : List Stmt},
    SpellsStmts source t ss → Stmt.AllSupported ss
  | _, _, .first only => ⟨only.supported, trivial⟩
  | _, _, .more before last =>
    Stmt.allSupported_append.mpr ⟨before.supported, last.supported, trivial⟩

end

theorem SpellsFunction.supported {source : List Char} {t : Tree} {f : FunctionDef}
    (h : SpellsFunction source t f) : f.body.Supported := by
  cases h with
  | params _ _ block => exact block.supported
  | noParams _ block => exact block.supported

theorem SpellsDecl.supported {source : List Char} {t : Tree} {d : Decl}
    (h : SpellsDecl source t d) : d.Supported := by
  cases h with
  | var spec => exact spec.supported
  | func function => exact function.supported

theorem SpellsDecls.supported {source : List Char} {t : Tree} {ds : List Decl}
    (h : SpellsDecls source t ds) : ∀ d ∈ ds, d.Supported := by
  induction h with
  | first only => simpa using only.supported
  | more _ last ih =>
    intro d hd
    rcases List.mem_append.mp hd with hd | hd
    · exact ih d hd
    · exact List.mem_singleton.mp hd ▸ last.supported

theorem SpellsProgram.supported {source : List Char} {t : Tree} {p : Program}
    (h : SpellsProgram source t p) : p.Supported := by
  cases h with
  | decls declarations => exact declarations.supported
  | empty => exact fun d hd => nomatch hd

/-! ## Derivations of programs -/

section Derivations

variable {source : List Char} {t : Tree} {w : List Token}

theorem Tree.Derives.limited (ht : t.Derives (.phrase .program) w) :
    Limited (w.filter (·.kind = .intLit)) (Reading.program source t) := by
  obtain ⟨p, hp⟩ := exists_spellsProgram source ht.wellFormed ht.symbol
  have hliterals := Tree.literals_eq ht.wellFormed (by simp [ht.symbol])
  rw [ht.leaves] at hliterals
  exact hliterals ▸ hp.limited

/-- The derivation of a program is read exactly if its integer literals are short enough. -/
theorem exists_reading_iff (source : List Char) (ht : t.Derives (.phrase .program) w) :
    (∃ p, Reading.program source t = .ok p) ↔ ShortLiterals w := by
  constructor
  · intro ⟨p, hp⟩ token hmem hkind
    exact ht.limited.short p hp token (List.mem_filter.mpr ⟨hmem, by simpa using hkind⟩)
  · intro hshort
    obtain ⟨p, hp⟩ := exists_spellsProgram source ht.wellFormed ht.symbol
    exact ⟨p, hp.reading (ht.readable hshort)⟩

/-- Where the derivation of a program is not read, an integer literal is too long. -/
theorem exists_long_of_reading_error (ht : t.Derives (.phrase .program) w) {e : ReadError}
    (he : Reading.program source t = .error e) :
    ∃ token ∈ w, token.kind = .intLit ∧ ReadError.maxDigits < token.text.length ∧
      e = .integerTooLong token.text.length := by
  obtain ⟨token, hmem, hlong, rfl⟩ := ht.limited.long e he
  obtain ⟨hmem, hkind⟩ := List.mem_filter.mp hmem
  exact ⟨token, hmem, by simpa using hkind, hlong, rfl⟩

theorem spells_of_reading (ht : t.Derives (.phrase .program) w) {p : Program}
    (hp : Reading.program source t = .ok p) : SpellsProgram source t p := by
  have hshort := (exists_reading_iff source ht).mp ⟨p, hp⟩
  exact (reading_program_eq_ok_iff (ht.readable hshort) ht.symbol p).mp hp

/-- A program that is read from its derivation is supported. -/
theorem supported_of_reading (ht : t.Derives (.phrase .program) w) {p : Program}
    (hp : Reading.program source t = .ok p) : p.Supported :=
  (spells_of_reading ht hp).supported

end Derivations

end Sema
