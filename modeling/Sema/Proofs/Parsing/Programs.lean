import Sema.Parsing.Parsed
import Sema.Proofs.Parsing.Grouping
import Sema.Proofs.Syntax.Total

/-!
# The program of a text is its only reading

A text has a program exactly where its tokens have a derivation, which is then the only one, and the
program is the one that the derivation spells (`ofPieces_only_reading`).
-/

namespace Sema

open Reading (Readable)

/-- No integer literal among the tokens is too long to be read. -/
def ShortLiterals (w : List Token) : Prop :=
  ∀ token ∈ w, token.kind = .intLit → token.text.length ≤ ReadError.maxDigits

instance (w : List Token) : Decidable (ShortLiterals w) :=
  inferInstanceAs (Decidable (∀ token ∈ w, _ → _))

theorem Tree.Derives.readable {t : Tree} {x : GrammarSymbol} {w : List Token} (h : t.Derives x w)
    (hw : ShortLiterals w) : Readable t :=
  ⟨h.wellFormed, fun token hmem => hw token (h.leaves ▸ hmem)⟩

theorem ofPieces_eq_ok {source : List Char} {ps : List Piece} {p : Program} :
    Program.ofPieces source ps = .ok p ↔
      ∃ t, Parsing.strict ps = .ok t ∧ Reading.program source t = .ok p := by
  unfold Program.ofPieces
  cases hstrict : Parsing.strict ps with
  | error e => simp
  | ok t => cases hread : Reading.program source t <;> simp [hread]

theorem ofPieces_eq_ok_iff {source : List Char} {ps : List Piece} {t : Tree} (hps : NoStray ps)
    (hshort : ShortLiterals (tokensOf ps)) (ht : t.Derives (.phrase .program) (tokensOf ps))
    (p : Program) : Program.ofPieces source ps = .ok p ↔ SpellsProgram source t p := by
  have hstrict : Parsing.strict ps = .ok t := Parsing.strict_eq_ok_iff.mpr ⟨hps, ht⟩
  rw [ofPieces_eq_ok, ← reading_program_eq_ok_iff (ht.readable hshort) ht.symbol p]
  simp [hstrict]

/-- Pieces of a text make a program exactly where there is no stray character and their tokens have
a derivation. The derivation is the only one and the program is what it spells, as the grammar is
unambiguous: operators and branches group in one way only. -/
theorem ofPieces_only_reading (source : List Char) (ps : List Piece)
    (hshort : ShortLiterals (tokensOf ps)) :
    ((∃ p, Program.ofPieces source ps = .ok p) ↔
      NoStray ps ∧ ∃ t : Tree, t.Derives (.phrase .program) (tokensOf ps)) ∧
    (∀ t t' : Tree, t.Derives (.phrase .program) (tokensOf ps) →
      t'.Derives (.phrase .program) (tokensOf ps) → t = t') ∧
    (∀ t : Tree, NoStray ps → t.Derives (.phrase .program) (tokensOf ps) →
      ∀ p, Program.ofPieces source ps = .ok p ↔ SpellsProgram source t p) ∧
    (∀ c : Category, c.Unambiguous) ∧ Grouping source := by
  refine ⟨⟨?_, ?_⟩, fun t t' => Parsing.eq_of_derives_program,
    fun t hps ht => ofPieces_eq_ok_iff hps hshort ht, Category.unambiguous, grouping source⟩
  · intro ⟨p, hp⟩
    obtain ⟨t, hstrict, -⟩ := ofPieces_eq_ok.mp hp
    obtain ⟨hps, ht⟩ := Parsing.strict_eq_ok_iff.mp hstrict
    exact ⟨hps, t, ht⟩
  · intro ⟨hps, t, ht⟩
    obtain ⟨p, hp⟩ := exists_spellsProgram source ht.wellFormed ht.symbol
    exact ⟨p, (ofPieces_eq_ok_iff hps hshort ht p).mpr hp⟩

/-- A variable with operators of three levels in its value. -/
def threeLevels : List Char :=
  "int x = !a || b && 1;".toList

theorem threeLevels_only_reading : ShortLiterals (tokensOf (pieces threeLevels)) ∧
    ∃ (t : Tree) (p : Program), t.Derives (.phrase .program) (tokensOf (pieces threeLevels)) ∧
      Program.ofSource threeLevels = .ok p ∧ SpellsProgram threeLevels t p := by
  have hshort : ShortLiterals (tokensOf (pieces threeLevels)) := by decide +kernel
  obtain ⟨haccepted, -, hreading, -⟩ := ofPieces_only_reading threeLevels (pieces threeLevels) hshort
  have hok : (Parsing.strict (pieces threeLevels)).isOk = true := by decide +kernel
  obtain ⟨t, hstrict⟩ : ∃ t, Parsing.strict (pieces threeLevels) = .ok t := by
    cases h : Parsing.strict (pieces threeLevels) with
    | ok t => exact ⟨t, rfl⟩
    | error e => simp [h, Except.isOk, Except.toBool] at hok
  obtain ⟨hps, ht⟩ := Parsing.strict_eq_ok_iff.mp hstrict
  obtain ⟨p, hp⟩ := haccepted.mpr ⟨hps, t, ht⟩
  exact ⟨hshort, t, p, ht, hp, (hreading t hps ht p).mp hp⟩

end Sema
