import Sema.Proofs.Checking.Summary

/-!
# Places of reports

What the walk over a declaration finds, it finds where nodes of the declaration stand
(`Decl.finds_at`). So all that a check reports stands at a node of the program, but for a missing
entry point (`Program.placedAt_reports`).
-/

namespace Sema

variable {L : Location → Prop}

/-! ## Nodes of sites -/

theorem decl_mem_of_mem_sites {G : Scope} {ds : List Decl} {site : Site} (h : site ∈ sites G ds) :
    site.decl ∈ ds := by
  induction ds generalizing G with
  | nil => cases h
  | cons d ds ih =>
    rcases List.mem_cons.mp h with rfl | h
    · exact .head _
    · exact .tail _ (ih h)

theorem Program.mem_tops {p : Program} {d : Decl} (hd : d ∈ p.declarations) {n : Node}
    (hn : d.node? = some n) : n ∈ p.tops :=
  List.mem_flatMap.mpr ⟨d, hd, Option.mem_toList.mpr hn⟩

theorem Program.function_mem_tops {p : Program} {f : FunctionDef} (h : f ∈ p.functions) :
    .function f ∈ p.tops := by
  obtain ⟨d, hd, hfunction⟩ := List.mem_filterMap.mp h
  cases d with
  | func g =>
    obtain rfl := Option.some.inj hfunction
    exact mem_tops hd rfl
  | _ => cases hfunction

/-! ## Diagnostics -/

/-- Whether a diagnostic reports a violation at a place that `L` admits. -/
def Diagnostic.PlacedAt (L : Location → Prop) (d : Diagnostic) : Prop :=
  ∃ v loc, L loc ∧ (Finding.violation v loc).Placed ∧ d = v.located loc

/-- Whether a diagnostic reports what a walk can find, at a place that `L` admits. -/
def Diagnostic.OfWalkAt (L : Location → Prop) (d : Diagnostic) : Prop :=
  ∃ v loc, L loc ∧ (Finding.violation v loc).OfWalk ∧ d = v.located loc

variable {d : Diagnostic}

theorem Diagnostic.PlacedAt.located (v : Violation) {loc : Location} (hloc : L loc)
    (h : (Finding.violation v loc).Placed := by trivial) : (v.located loc).PlacedAt L :=
  ⟨v, loc, hloc, h, rfl⟩

theorem Diagnostic.PlacedAt.of_mem_returnReports {decl : Decl} {findings : List Finding}
    (hL : ∀ n ∈ decl.node?, n.Everywhere L) (h : d ∈ decl.returnReports findings) :
    d.PlacedAt L := by
  obtain ⟨f, rfl, rfl⟩ := Decl.exists_of_mem_returnReports h
  exact located _ (hL _ rfl).here

namespace Diagnostic.OfWalkAt

theorem located (v : Violation) {loc : Location} (hloc : L loc)
    (h : (Finding.violation v loc).OfWalk := by trivial) : (v.located loc).OfWalkAt L :=
  ⟨v, loc, hloc, h, rfl⟩

theorem placedAt (h : d.OfWalkAt L) : d.PlacedAt L := by
  obtain ⟨v, loc, hloc, hv, rfl⟩ := h
  exact ⟨v, loc, hloc, hv.placed, rfl⟩

theorem of_finding {finding : Finding} (hwalk : finding.OfWalk) (hat : finding.At L)
    (hd : finding.diagnostic? = some d) : d.OfWalkAt L := by
  cases finding with
  | violation v loc => exact ⟨v, loc, hat, hwalk, (Option.some.inj hd).symm⟩
  | _ => cases hd

theorem of_mem_typeReports {name : Option String} {loc : Location} (hloc : L loc)
    (h : d ∈ typeReports name loc) : d.OfWalkAt L := by
  obtain ⟨e, -, rfl⟩ := exists_of_mem_typeReports h
  exact located _ hloc

theorem of_mem_paramReports {func : String} {seen : List String} {ps : List Param}
    (hps : ∀ p ∈ ps, L p.loc) (h : d ∈ paramReports func seen ps) : d.OfWalkAt L := by
  obtain ⟨p, hp, rfl | h⟩ := exists_of_mem_paramReports h
  · exact located _ (hps p hp)
  · exact of_mem_typeReports (hps p hp) h

theorem of_mem_headReports {f : FunctionDef} (hf : (Node.function f).Everywhere L)
    (h : d ∈ f.headReports) : d.OfWalkAt L := by
  rcases List.mem_append.mp h with h | h
  · exact of_mem_typeReports hf.here h
  · exact of_mem_paramReports hf.params h

end Diagnostic.OfWalkAt

/-! ## Walks -/

/-- What the walk over a declaration finds, it finds where the nodes of the declaration stand. -/
theorem Decl.finds_at {decl : Decl} (hL : ∀ n ∈ decl.node?, n.Everywhere L) :
    decl.walk.Finds fun finding => finding.OfWalk ∧ finding.At L := by
  cases decl with
  | func f =>
    exact Checking.finds_checkBody_of
      (Walk.closedInFrames_finds fun _ hat hwalk _ => ⟨hwalk, hat⟩) (hL _ rfl)
  | var v =>
    exact Checking.closed_checkVarDecl
      (Walk.closed_finds (fun _ _ hloc hv => ⟨hv, hloc⟩) ⟨trivial, trivial⟩)
      Walk.finds_declare .global (fun _ => Walk.finds_find ⟨trivial, trivial⟩) v
      (.inr Walk.finds_fail) (hL _ rfl)
  | unsupported => exact Walk.finds_fail _

namespace Site

variable {callee? : String → Option Signature} {site : Site}

theorem at_findings (hsite : site.Walks callee?) (hL : ∀ n ∈ site.decl.node?, n.Everywhere L) :
    ∀ finding ∈ (site.walked callee?).findings, finding.OfWalk ∧ finding.At L := by
  obtain ⟨s', fs, hwalked⟩ := walks_iff.mp hsite
  rw [hwalked]
  exact Decl.finds_at hL _ _ _ _ _ hwalked

theorem ofWalkAt_findings (hsite : site.Walks callee?)
    (hL : ∀ n ∈ site.decl.node?, n.Everywhere L)
    (h : d ∈ (site.walked callee?).findings.filterMap Finding.diagnostic?) : d.OfWalkAt L := by
  obtain ⟨finding, hmem, hd⟩ := List.mem_filterMap.mp h
  obtain ⟨hwalk, hat⟩ := at_findings hsite hL finding hmem
  exact .of_finding hwalk hat hd

theorem placedAt_reports (hsite : site.Walks callee?)
    (hL : ∀ n ∈ site.decl.node?, n.Everywhere L) (h : d ∈ site.reports callee?) :
    d.PlacedAt L := by
  rcases List.mem_append.mp h with h | h
  · exact (ofWalkAt_findings hsite hL h).placedAt
  · exact .of_mem_returnReports hL h

end Site

/-! ## Programs -/

namespace Program

variable {p : Program}

/-- All that is reported stands at a node of the program, but for a missing entry point. -/
theorem placedAt_reports (hp : p.Walks) (hL : ∀ n ∈ p.tops, n.Everywhere L) (h : d ∈ p.reports) :
    d.PlacedAt L ∨ d ∈ p.mainReports := by
  have hfunctions : ∀ f ∈ p.functions, (Node.function f).Everywhere L := fun f hf =>
    hL _ (function_mem_tops hf)
  rcases mem_reports.mp h with ⟨f, hf, hd⟩ | ⟨f, hf, rfl⟩ | ⟨site, hsite, hd⟩ | hmain
  · exact .inl (Diagnostic.OfWalkAt.of_mem_headReports (hfunctions f hf) hd).placedAt
  · exact .inl (.located _ (hfunctions f (sublist_repeats.subset hf)).here)
  · exact .inl (Site.placedAt_reports (hp site hsite)
      (fun n hn => hL n (mem_tops (decl_mem_of_mem_sites hsite) hn)) hd)
  · exact .inr hmain

end Program

end Sema
