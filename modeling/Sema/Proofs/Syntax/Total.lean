import Sema.Proofs.Syntax.Reading

/-!
# Every derivation spells something

A phrase of which every part spells something does so itself, one case per rule
(`spells_of_parts`). By induction over the tree every derivation of a program spells one
(`exists_spellsProgram`), and only the one that reading finds (`reading_program_eq_ok_iff`).
-/

namespace Sema

open Reading (Readable)

/-! ## One rule -/

/-- Whether a phrase of the given category spells something. -/
def Spells (source : List Char) : Category → Tree → Prop
  | .program, t => ∃ p, SpellsProgram source t p
  | .decls, t => ∃ ds, SpellsDecls source t ds
  | .decl, t => ∃ d, SpellsDecl source t d
  | .varDecl, t => ∃ s semicolon d, t = .node .varDecl [s, .leaf semicolon] ∧ SpellsVar source s d
  | .varSpec, t => ∃ d, SpellsVar source t d
  | .funcDef, t => ∃ f, SpellsFunction source t f
  | .params, t | .paramTail, t => ∃ ps, SpellsParams t ps
  | .param, t => ∃ p, SpellsParam t p
  | .typeName, t => ∃ type, SpellsType t type
  | .block, t => ∃ b, SpellsBlock source t b
  | .stmts, t => ∃ ss, SpellsStmts source t ss
  | .stmt, t | .exprStmt, t | .ifStmt, t | .whileStmt, t | .forStmt, t | .returnStmt, t =>
    ∃ s, SpellsStmt source t s
  | .forInit, t => ∃ init, SpellsInit source t init
  | .forCond, t => ∃ condition, SpellsCond t condition
  | .forUpdate, t => ∃ update, SpellsUpdate t update
  | .expr, t | .assign, t | .orExpr, t | .andExpr, t | .eqExpr, t | .relExpr, t | .addExpr, t
  | .mulExpr, t | .unary, t | .atom, t => ∃ e, SpellsExpr t e
  | .args, t | .argTail, t => ∃ es, SpellsArgs t es

theorem spells_level {source : List Char} (level : Level) (t : Tree) :
    Spells source level.category t ↔ ∃ e, SpellsExpr t e := by
  cases level <;> rfl

theorem spells_operand {source : List Char} (level : Level) (t : Tree) :
    Spells source level.operand t ↔ ∃ e, SpellsExpr t e := by
  cases level <;> rfl

/-- Whether trees are the parts of a phrase: tokens, and phrases that spell something. -/
def Parts (source : List Char) : List GrammarSymbol → List Tree → Prop
  | [], ts => ts = []
  | .terminal _ :: xs, ts => ∃ token rest, ts = .leaf token :: rest ∧ Parts source xs rest
  | .phrase c :: xs, ts => ∃ t rest, ts = t :: rest ∧ Spells source c t ∧ Parts source xs rest

theorem exists_performs (e : Expr) : ∃ s, Performs e s := by
  cases e with
  | assign loc x value => exact ⟨_, .assign⟩
  | _ => exact ⟨_, .expr (by simp)⟩

/-- A phrase whose parts spell something spells something. -/
theorem spells_of_parts {source : List Char} {r : Rule} {ts : List Tree}
    (h : Parts source r.body ts) : Spells source r.category (.node r ts) := by
  match r with
  | .programDecls =>
    obtain ⟨_, _, rfl, ⟨_, h⟩, rfl⟩ := h
    exact ⟨_, .decls h⟩
  | .programEmpty =>
    obtain rfl := h
    exact ⟨_, .empty⟩
  | .declsFirst =>
    obtain ⟨_, _, rfl, ⟨_, h⟩, rfl⟩ := h
    exact ⟨_, .first h⟩
  | .declsMore =>
    obtain ⟨_, _, rfl, ⟨_, h⟩, _, _, rfl, ⟨_, h'⟩, rfl⟩ := h
    exact ⟨_, .more h h'⟩
  | .declVar =>
    obtain ⟨_, _, rfl, ⟨_, _, _, rfl, h⟩, rfl⟩ := h
    exact ⟨_, .var h⟩
  | .declFunc =>
    obtain ⟨_, _, rfl, ⟨_, h⟩, rfl⟩ := h
    exact ⟨_, .func h⟩
  | .varDecl =>
    obtain ⟨_, _, rfl, ⟨_, h⟩, _, _, rfl, rfl⟩ := h
    exact ⟨_, _, _, rfl, h⟩
  | .varSpec false false =>
    obtain ⟨_, _, rfl, ⟨_, h⟩, _, _, rfl, rfl⟩ := h
    exact ⟨_, .plain h⟩
  | .varSpec true false =>
    obtain ⟨_, _, rfl, _, _, rfl, ⟨_, h⟩, _, _, rfl, rfl⟩ := h
    exact ⟨_, .constant h⟩
  | .varSpec false true =>
    obtain ⟨_, _, rfl, ⟨_, h⟩, _, _, rfl, _, _, rfl, _, _, rfl, ⟨_, h'⟩, rfl⟩ := h
    exact ⟨_, .plainInit h h'⟩
  | .varSpec true true =>
    obtain ⟨_, _, rfl, _, _, rfl, ⟨_, h⟩, _, _, rfl, _, _, rfl, _, _, rfl, ⟨_, h'⟩, rfl⟩ := h
    exact ⟨_, .constantInit h h'⟩
  | .funcDef .typed true =>
    obtain ⟨_, _, rfl, ⟨_, h⟩, _, _, rfl, _, _, rfl, _, _, rfl, ⟨_, h'⟩, _, _, rfl, _, _, rfl,
      ⟨_, h''⟩, rfl⟩ := h
    exact ⟨_, .params (.typed h) h' h''⟩
  | .funcDef .typed false =>
    obtain ⟨_, _, rfl, ⟨_, h⟩, _, _, rfl, _, _, rfl, _, _, rfl, _, _, rfl, ⟨_, h''⟩, rfl⟩ := h
    exact ⟨_, .noParams (.typed h) h''⟩
  | .funcDef .void true =>
    obtain ⟨_, _, rfl, _, _, rfl, _, _, rfl, _, _, rfl, ⟨_, h'⟩, _, _, rfl, _, _, rfl, ⟨_, h''⟩,
      rfl⟩ := h
    exact ⟨_, .params .void h' h''⟩
  | .funcDef .void false =>
    obtain ⟨_, _, rfl, _, _, rfl, _, _, rfl, _, _, rfl, _, _, rfl, ⟨_, h''⟩, rfl⟩ := h
    exact ⟨_, .noParams .void h''⟩
  | .funcDef .absent true =>
    obtain ⟨_, _, rfl, _, _, rfl, _, _, rfl, ⟨_, h'⟩, _, _, rfl, _, _, rfl, ⟨_, h''⟩, rfl⟩ := h
    exact ⟨_, .params .absent h' h''⟩
  | .funcDef .absent false =>
    obtain ⟨_, _, rfl, _, _, rfl, _, _, rfl, _, _, rfl, ⟨_, h''⟩, rfl⟩ := h
    exact ⟨_, .noParams .absent h''⟩
  | .paramsMany =>
    obtain ⟨_, _, rfl, ⟨_, h⟩, _, _, rfl, ⟨_, h'⟩, rfl⟩ := h
    exact ⟨_, .many h h'⟩
  | .paramsOne =>
    obtain ⟨_, _, rfl, ⟨_, h⟩, rfl⟩ := h
    exact ⟨_, .one h⟩
  | .paramTailFirst =>
    obtain ⟨_, _, rfl, _, _, rfl, ⟨_, h⟩, rfl⟩ := h
    exact ⟨_, .tailFirst h⟩
  | .paramTailMore =>
    obtain ⟨_, _, rfl, ⟨_, h⟩, _, _, rfl, _, _, rfl, ⟨_, h'⟩, rfl⟩ := h
    exact ⟨_, .tailMore h h'⟩
  | .param =>
    obtain ⟨_, _, rfl, ⟨_, h⟩, _, _, rfl, rfl⟩ := h
    exact ⟨_, .mk h⟩
  | .typeName _ =>
    obtain ⟨_, _, rfl, rfl⟩ := h
    exact ⟨_, .mk⟩
  | .blockFull =>
    obtain ⟨_, _, rfl, _, _, rfl, ⟨_, h⟩, _, _, rfl, rfl⟩ := h
    exact ⟨_, .full h⟩
  | .blockEmpty =>
    obtain ⟨_, _, rfl, _, _, rfl, rfl⟩ := h
    exact ⟨_, .empty⟩
  | .stmtsFirst =>
    obtain ⟨_, _, rfl, ⟨_, h⟩, rfl⟩ := h
    exact ⟨_, .first h⟩
  | .stmtsMore =>
    obtain ⟨_, _, rfl, ⟨_, h⟩, _, _, rfl, ⟨_, h'⟩, rfl⟩ := h
    exact ⟨_, .more h h'⟩
  | .stmt .varDecl =>
    obtain ⟨_, _, rfl, ⟨_, _, _, rfl, h⟩, rfl⟩ := h
    exact ⟨_, .varDecl h⟩
  | .stmt .block =>
    obtain ⟨_, _, rfl, ⟨_, h⟩, rfl⟩ := h
    exact ⟨_, .block h⟩
  | .stmt .expr | .stmt .ifThen | .stmt .whileLoop | .stmt .forLoop | .stmt .result =>
    obtain ⟨_, _, rfl, ⟨_, h⟩, rfl⟩ := h
    exact ⟨_, .form (by decide) h⟩
  | .exprStmt =>
    obtain ⟨_, _, rfl, ⟨e, h⟩, _, _, rfl, rfl⟩ := h
    have ⟨_, he⟩ := exists_performs e
    exact ⟨_, .expr h he⟩
  | .ifThen =>
    obtain ⟨_, _, rfl, _, _, rfl, _, _, rfl, ⟨_, h⟩, _, _, rfl, _, _, rfl, ⟨_, h'⟩, rfl⟩ := h
    exact ⟨_, .ifThen h h'⟩
  | .ifElse =>
    obtain ⟨_, _, rfl, _, _, rfl, _, _, rfl, ⟨_, h⟩, _, _, rfl, _, _, rfl, ⟨_, h'⟩, _, _, rfl, _,
      _, rfl, ⟨_, h''⟩, rfl⟩ := h
    exact ⟨_, .ifElse h h' h''⟩
  | .ifElseIf =>
    obtain ⟨_, _, rfl, _, _, rfl, _, _, rfl, ⟨_, h⟩, _, _, rfl, _, _, rfl, ⟨_, h'⟩, _, _, rfl, _,
      _, rfl, ⟨_, h''⟩, rfl⟩ := h
    exact ⟨_, .ifElseIf h h' h''⟩
  | .whileLoop =>
    obtain ⟨_, _, rfl, _, _, rfl, _, _, rfl, ⟨_, h⟩, _, _, rfl, _, _, rfl, ⟨_, h'⟩, rfl⟩ := h
    exact ⟨_, .whileLoop h h'⟩
  | .forLoop =>
    obtain ⟨_, _, rfl, _, _, rfl, _, _, rfl, ⟨_, hi⟩, _, _, rfl, _, _, rfl, ⟨_, hc⟩, _, _, rfl,
      _, _, rfl, ⟨_, hu⟩, _, _, rfl, _, _, rfl, ⟨_, hb⟩, rfl⟩ := h
    exact ⟨_, .forLoop hi hc hu hb⟩
  | .forInitVar =>
    obtain ⟨_, _, rfl, ⟨_, h⟩, rfl⟩ := h
    exact ⟨_, .var h⟩
  | .forInitExpr =>
    obtain ⟨_, _, rfl, ⟨e, h⟩, rfl⟩ := h
    have ⟨_, he⟩ := exists_performs e
    exact ⟨_, .expr h he⟩
  | .forInitEmpty =>
    obtain rfl := h
    exact ⟨_, .empty⟩
  | .forCondExpr =>
    obtain ⟨_, _, rfl, ⟨_, h⟩, rfl⟩ := h
    exact ⟨_, .expr h⟩
  | .forCondEmpty =>
    obtain rfl := h
    exact ⟨_, .empty⟩
  | .forUpdateExpr =>
    obtain ⟨_, _, rfl, ⟨e, h⟩, rfl⟩ := h
    have ⟨_, he⟩ := exists_performs e
    exact ⟨_, .expr h he⟩
  | .forUpdateEmpty =>
    obtain rfl := h
    exact ⟨_, .empty⟩
  | .returnValue =>
    obtain ⟨_, _, rfl, _, _, rfl, ⟨_, h⟩, _, _, rfl, rfl⟩ := h
    exact ⟨_, .returnValue h⟩
  | .returnBare =>
    obtain ⟨_, _, rfl, _, _, rfl, rfl⟩ := h
    exact ⟨_, .returnBare⟩
  | .expr =>
    obtain ⟨_, _, rfl, ⟨_, h⟩, rfl⟩ := h
    exact ⟨_, .expr h⟩
  | .assignTo =>
    obtain ⟨_, _, rfl, _, _, rfl, _, _, rfl, ⟨_, h⟩, rfl⟩ := h
    exact ⟨_, .assignTo h⟩
  | .assignNone =>
    obtain ⟨_, _, rfl, ⟨_, h⟩, rfl⟩ := h
    exact ⟨_, .assignNone h⟩
  | .binary op =>
    obtain ⟨_, _, rfl, h, _, _, rfl, _, _, rfl, h', rfl⟩ := h
    have ⟨_, hl⟩ := (spells_level op.level _).mp h
    have ⟨_, hr⟩ := (spells_operand op.level _).mp h'
    exact (spells_level op.level _).mpr ⟨_, .binary hl hr⟩
  | .operand level =>
    obtain ⟨_, _, rfl, h, rfl⟩ := h
    have ⟨_, he⟩ := (spells_operand level _).mp h
    exact (spells_level level _).mpr ⟨_, .operand he⟩
  | .unaryNot =>
    obtain ⟨_, _, rfl, _, _, rfl, ⟨_, h⟩, rfl⟩ := h
    exact ⟨_, .not h⟩
  | .unaryAtom =>
    obtain ⟨_, _, rfl, ⟨_, h⟩, rfl⟩ := h
    exact ⟨_, .unaryAtom h⟩
  | .intLit =>
    obtain ⟨_, _, rfl, rfl⟩ := h
    exact ⟨_, .int⟩
  | .floatLit =>
    obtain ⟨_, _, rfl, rfl⟩ := h
    exact ⟨_, .float (Double.spells_iff_double.mpr rfl)⟩
  | .stringLit =>
    obtain ⟨_, _, rfl, rfl⟩ := h
    exact ⟨_, .string (inside_iff.mpr rfl)⟩
  | .callArgs =>
    obtain ⟨_, _, rfl, _, _, rfl, _, _, rfl, ⟨_, h⟩, _, _, rfl, rfl⟩ := h
    exact ⟨_, .call h⟩
  | .callEmpty =>
    obtain ⟨_, _, rfl, _, _, rfl, _, _, rfl, rfl⟩ := h
    exact ⟨_, .callEmpty⟩
  | .name =>
    obtain ⟨_, _, rfl, rfl⟩ := h
    exact ⟨_, .name⟩
  | .paren =>
    obtain ⟨_, _, rfl, _, _, rfl, ⟨_, h⟩, _, _, rfl, rfl⟩ := h
    exact ⟨_, .paren h⟩
  | .argsMany =>
    obtain ⟨_, _, rfl, ⟨_, h⟩, _, _, rfl, ⟨_, h'⟩, rfl⟩ := h
    exact ⟨_, .many h h'⟩
  | .argsOne =>
    obtain ⟨_, _, rfl, ⟨_, h⟩, rfl⟩ := h
    exact ⟨_, .one h⟩
  | .argTailFirst =>
    obtain ⟨_, _, rfl, _, _, rfl, ⟨_, h⟩, rfl⟩ := h
    exact ⟨_, .tailFirst h⟩
  | .argTailMore =>
    obtain ⟨_, _, rfl, ⟨_, h⟩, _, _, rfl, _, _, rfl, ⟨_, h'⟩, rfl⟩ := h
    exact ⟨_, .tailMore h h'⟩

/-! ## The whole tree -/

mutual

theorem spells_of_wellFormed {source : List Char} : ∀ (t : Tree) (c : Category), t.WellFormed →
    t.symbol = .phrase c → Spells source c t
  | .leaf _, _, _, hc => nomatch hc
  | .node r ts, c, ht, hc => by
    have hcategory : r.category = c := GrammarSymbol.phrase.inj hc
    have hparts : Parts source r.body ts := ht.1 ▸ parts_of_allWellFormed ts ht.2
    exact hcategory ▸ spells_of_parts hparts

theorem parts_of_allWellFormed {source : List Char} : ∀ ts : List Tree, Tree.AllWellFormed ts →
    Parts source (ts.map Tree.symbol) ts
  | [], _ => rfl
  | .leaf token :: ts, hts => ⟨token, ts, rfl, parts_of_allWellFormed ts hts.2⟩
  | .node r us :: ts, hts =>
    ⟨.node r us, ts, rfl, spells_of_wellFormed (.node r us) r.category hts.1 rfl,
      parts_of_allWellFormed ts hts.2⟩

end

/-- Every derivation of a program spells one. -/
theorem exists_spellsProgram (source : List Char) {t : Tree} (ht : t.WellFormed)
    (hprogram : t.symbol = .phrase .program) : ∃ p, SpellsProgram source t p :=
  spells_of_wellFormed t .program ht hprogram

/-- Reading the derivation of a program gives the program that it spells, and nothing else. -/
theorem reading_program_eq_ok_iff {source : List Char} {t : Tree} (ht : Readable t)
    (hprogram : t.symbol = .phrase .program) (p : Program) :
    Reading.program source t = .ok p ↔ SpellsProgram source t p := by
  obtain ⟨q, hq⟩ := exists_spellsProgram source ht.wellFormed hprogram
  have hread := hq.reading ht
  refine ⟨fun hp => ?_, fun hp => hp.reading ht⟩
  rw [hread] at hp
  exact Except.ok.inj hp ▸ hq

end Sema
