import Sema.Proofs.Parsing.Places
import Sema.Proofs.Parsing.Prefixes
import Sema.Proofs.Parsing.Recovery

/-!
# Outcomes that differ in places only

Derivations that differ in places only read as the same program, up to places, or fail in the same
way (`agree_of_bare_eq`). So two recovering parses whose trees do not differ otherwise give the same
program (`agree_program`), and a recovering parse and a strict one have the same outcome
(`sameOutcome_of_bare_eq`).
-/

namespace Sema

/-- The program that derivations read as does not depend on the places of their tokens. -/
theorem agree_of_bare_eq {source source' : List Char} {t t' : Tree} {w w' : List Token}
    (ht : t.Derives (.phrase .program) w) (ht' : t'.Derives (.phrase .program) w')
    (hbare : t.bare = t'.bare) :
    Reading.Agree Program.bare (Reading.program source t) (Reading.program source' t') := by
  obtain ⟨q, hq⟩ := exists_spellsProgram source ht.wellFormed ht.symbol
  obtain ⟨q', hq'⟩ := exists_spellsProgram source' ht'.wellFormed ht'.symbol
  have hagree : Reading.Agree Program.bare (Reading.program [] t.bare) (Reading.program source t) :=
    hq.agree
  rw [hbare] at hagree
  exact hagree.symm.trans hq'.agree

/-- Recovering parses with trees that differ in places only read as the same program, up to
places. -/
theorem agree_program {source source' : List Char} {ps ps' : List Piece}
    (h : (Parsing.recover ps).tree.map Tree.bare = (Parsing.recover ps').tree.map Tree.bare) :
    Reading.Agree (Option.map Program.bare) ((Parsing.recover ps).program source)
      ((Parsing.recover ps').program source') := by
  cases hrecover : (Parsing.recover ps).tree with
  | none =>
    rw [hrecover, Option.map_none, eq_comm, Option.map_eq_none_iff] at h
    simp only [Recovered.program, hrecover, h]
    rfl
  | some tree =>
    rw [hrecover, Option.map_some, eq_comm, Option.map_eq_some_iff] at h
    obtain ⟨tree', hrecover', hbare⟩ := h
    have hagree := @agree_of_bare_eq source source' _ _ _ _ (Parsing.derives_recover hrecover).1
      (Parsing.derives_recover hrecover').1 hbare.symm
    simp only [Recovered.program, hrecover, hrecover']
    exact hagree.map fun p q hsame => congrArg some hsame

theorem Parsed.ofPieces_of_recover {source : List Char} {ps : List Piece} {r : Recovered}
    (h : Parsing.recover ps = r) :
    Parsed.ofPieces source ps = (r.program source).map (⟨·, r.diagnostics⟩) := by
  subst h
  rw [Parsed.ofPieces]
  cases (Parsing.recover ps).program source <;> rfl

theorem Program.ofPieces_eq_error_parse {source : List Char} {ps : List Piece} {e : ParseError}
    (h : Program.ofPieces source ps = .error (.parse e)) : Parsing.strict ps = .error e := by
  unfold Program.ofPieces at h
  split at h
  · next e' hstrict =>
    cases h
    exact hstrict
  · split at h <;> cases h

/-- What a recovering parse makes of pieces and what strict parsing makes of others is the same, up
to places: a program, beside some diagnostics, or a reading that fails. -/
def SameOutcome (parsed : Reading Parsed) (ds : List Diagnostic)
    (strict : Except SourceError Program) : Prop :=
  (∃ p q, parsed = .ok ⟨some p, ds⟩ ∧ strict = .ok q ∧ p.bare = q.bare) ∨
    ∃ e, parsed = .error e ∧ strict = .error (.read e)

/-- Trees that differ in places only have the same outcome. -/
theorem sameOutcome_of_bare_eq {source source' : List Char} {ps ps' : List Piece} {t t' : Tree}
    {repairs : List Repair} {w : List Token} (hrecover : Parsing.recover ps = ⟨repairs, some t⟩)
    (ht : t.Derives (.phrase .program) w) (hstrict : Parsing.strict ps' = .ok t')
    (hbare : t.bare = t'.bare) :
    SameOutcome (Parsed.ofPieces source ps) (Repair.report repairs)
      (Program.ofPieces source' ps') := by
  have ht' := (Parsing.strict_eq_ok_iff.mp hstrict).2
  have hagree := @agree_of_bare_eq source source' _ _ _ _ ht ht' hbare
  rw [Parsed.ofPieces_of_recover hrecover, Program.ofPieces, hstrict]
  simp only [Recovered.program, Recovered.diagnostics]
  rcases hagree.cases with ⟨e, hp, hq⟩ | ⟨p, q, hp, hq, hsame⟩
  · rw [hp, hq]
    exact .inr ⟨e, rfl, rfl⟩
  · rw [hp, hq]
    exact .inl ⟨p, q, rfl, rfl, hsame⟩

end Sema
