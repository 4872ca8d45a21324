import Sema.Proofs.Parsing.BorrowedPlaces
import Sema.Proofs.Parsing.ReportPlaces
import Sema.Proofs.Syntax.Extents

/-!
# Ranges of lines after recovery

However much a source is repaired, the tokens of the recovered tree stand on lines of the source,
each on a single one, and these lines never go back (`Anchored.inLines`): an inserted mark has the
place of a token of the source, and the tokens end in order. So every node of the program starts and
ends on lines of the source, its children lie within its lines, and none of them starts on an
earlier line than the one before (`wellPlaced_nodes`).
-/

namespace Sema

variable {source : List Char}

/-! ## Lines of tokens -/

theorem exists_stop {t : Token} (h : t ∈ tokensOf (pieces source)) :
    ∃ before, before <+: source ∧ t.stop = Position.start.advance before := by
  obtain ⟨before, after, hpieces⟩ := exists_append_of_mem_tokensOf h
  obtain ⟨rest, hsource, hstart, hstop, -⟩ := exists_text_around hpieces
  refine ⟨before.flatMap Piece.text ++ t.text.toList, ⟨rest, ?_⟩, ?_⟩
  · rw [List.append_assoc]
    exact hsource.symm
  · rw [hstop, hstart, Position.advance_append]

theorem stop_line_le {s t : Token} (hs : s ∈ tokensOf (pieces source))
    (ht : t ∈ tokensOf (pieces source)) (h : s.stop.offset ≤ t.stop.offset) :
    s.stop.line ≤ t.stop.line := by
  obtain ⟨before, hbefore, hs⟩ := exists_stop hs
  obtain ⟨before', hbefore', ht⟩ := exists_stop ht
  rw [hs, ht, offset_advance_start, offset_advance_start] at h
  rw [hs, ht, Position.line_advance, Position.line_advance]
  have hcount := (List.prefix_of_prefix_length_le hbefore hbefore' h).count_le '\n'
  omega

theorem stop_line_eq {t : Token} (h : t ∈ tokensOf (pieces source)) :
    t.stop.line = t.start.line := by
  obtain ⟨before, after, hpieces⟩ := exists_append_of_mem_tokensOf h
  obtain ⟨-, -, -, hstop, -, -, hline⟩ := exists_text_around hpieces
  rw [hstop, Position.advance_of_not_mem hline]

theorem start_in_of_mem_tokensOf {t : Token} (h : t ∈ tokensOf (pieces source)) :
    t.start.In source := by
  obtain ⟨before, after, hpieces⟩ := exists_append_of_mem_tokensOf h
  refine in_of_mem_placesOf (List.mem_filterMap.mpr ⟨.token t, ?_, rfl⟩)
  rw [hpieces]
  exact List.mem_append_right _ (.head _)

/-- The tokens stand in the source, each on a single line, and none on an earlier line than one
before it. -/
structure InLines (source : List Char) (w : List Token) : Prop where
  start : ∀ x ∈ w, x.start.In source
  single : ∀ x ∈ w, x.stop.line = x.start.line
  ordered : w.Pairwise fun x y => x.start.line ≤ y.start.line

theorem Token.InPlaceOf.start_eq {x s : Token} (h : x.InPlaceOf s) : x.start = s.start := by
  rcases h with rfl | ⟨mark, rfl⟩ <;> rfl

/-- Anchored tokens have the lines of tokens of the source, and come in order. -/
theorem Anchored.inLines {w : List Token} (h : Anchored (tokensOf (pieces source)) w) :
    InLines source w where
  start x hx := by
    obtain ⟨s, hs, hplace⟩ := h.anchor x hx
    exact hplace.start_eq ▸ start_in_of_mem_tokensOf hs
  single x hx := by
    obtain ⟨s, hs, hplace⟩ := h.anchor x hx
    rw [hplace.stop_eq, hplace.start_eq, stop_line_eq hs]
  ordered := by
    refine h.ordered.imp_of_mem fun {x y} hx hy hxy => ?_
    obtain ⟨s, hs, hxs⟩ := h.anchor x hx
    obtain ⟨t, ht, hyt⟩ := h.anchor y hy
    rw [hxs.stop_eq, hyt.stop_eq] at hxy
    rw [hxs.start_eq, hyt.start_eq, ← stop_line_eq hs, ← stop_line_eq ht]
    exact stop_line_le hs ht hxy

/-! ## Lines of places -/

theorem Position.In.line_le {p : Position} (h : p.In source) :
    1 ≤ p.line ∧ p.line ≤ source.count '\n' + 1 := by
  obtain ⟨before, c, after, rfl, rfl, -⟩ := h
  have hline : (start.advance before).line = 1 + before.count '\n' := line_advance start before
  rw [hline, List.count_append]
  omega

namespace Location

/-- The lines of a place are lines of the source, and it ends no earlier than it starts. -/
def Within (source : List Char) (loc : Location) : Prop :=
  ∃ last, loc.endLine = some last ∧ 1 ≤ loc.line ∧ loc.line ≤ last ∧
    last ≤ source.count '\n' + 1

def StartsIn (source : List Char) (loc : Location) : Prop :=
  ∃ p : Position, p.In source ∧ loc.line = p.line ∧ loc.column = p.column

def Encloses (outer inner : Location) : Prop :=
  outer.line ≤ inner.line ∧ inner.lastLine ≤ outer.lastLine

end Location

namespace InLines

variable {u w : List Token}

theorem sublist (h : InLines source w) (hu : u.Sublist w) : InLines source u where
  start x hx := h.start x (hu.subset hx)
  single x hx := h.single x (hu.subset hx)
  ordered := h.ordered.sublist hu

/-- Tokens have their place from the first and the last of them, which have the least line and the
greatest one. -/
theorem exists_place (h : InLines source w) (hne : w ≠ []) :
    ∃ first ∈ w, ∃ last ∈ w,
      placeOf w = ⟨first.start.line, first.start.column, some last.start.line⟩ ∧
      ∀ x ∈ w, first.start.line ≤ x.start.line ∧ x.start.line ≤ last.start.line := by
  obtain ⟨first, rest, hfirst⟩ := List.exists_cons_of_ne_nil hne
  obtain ⟨init, last, hlast⟩ : ∃ init last, w = init ++ [last] :=
    ⟨_, _, (List.dropLast_append_getLast hne).symm⟩
  have hmem : last ∈ w := by simp [hlast]
  refine ⟨first, by simp [hfirst], last, hmem, ?_, fun x hx => ⟨?_, ?_⟩⟩
  · have hhead : w.head? = some first := by rw [hfirst, List.head?_cons]
    have hgetLast : w.getLast? = some last := by rw [hlast, List.getLast?_concat]
    rw [placeOf, hhead, hgetLast]
    simp only [h.single last hmem]
  · have hordered := h.ordered
    rw [hfirst, List.pairwise_cons] at hordered
    rcases List.mem_cons.mp (hfirst ▸ hx) with rfl | hx
    · exact Nat.le_refl _
    · exact hordered.1 x hx
  · have hordered := h.ordered
    rw [hlast, List.pairwise_append] at hordered
    rcases List.mem_append.mp (hlast ▸ hx) with hx | hx
    · exact hordered.2.2 x hx last (.head _)
    · obtain rfl := List.mem_singleton.mp hx
      exact Nat.le_refl _

theorem within (h : InLines source w) (hne : w ≠ []) : (placeOf w).Within source := by
  obtain ⟨first, hfirst, last, hlast, hplace, hlines⟩ := h.exists_place hne
  have hstart := (h.start first hfirst).line_le
  have hstop := (h.start last hlast).line_le
  have hle := hlines first hfirst
  rw [hplace]
  exact ⟨_, rfl, Int.ofNat_le.mpr hstart.1, Int.ofNat_le.mpr hle.2, by omega⟩

theorem startsIn (h : InLines source w) (hne : w ≠ []) : (placeOf w).StartsIn source := by
  obtain ⟨first, hfirst, last, hlast, hplace, -⟩ := h.exists_place hne
  rw [hplace]
  exact ⟨first.start, h.start first hfirst, rfl, rfl⟩

theorem encloses (h : InLines source w) (hu : u.Sublist w) (hne : u ≠ []) :
    (placeOf w).Encloses (placeOf u) := by
  have hw : w ≠ [] := fun hnil => hne (List.sublist_nil.mp (hnil ▸ hu))
  obtain ⟨first, hfirst, last, hlast, hplace, hlines⟩ := h.exists_place hw
  obtain ⟨first', hfirst', last', hlast', hplace', -⟩ := (h.sublist hu).exists_place hne
  have hstart := (hlines first' (hu.subset hfirst')).1
  have hstop := (hlines last' (hu.subset hlast')).2
  rw [hplace, hplace']
  simp only [Location.Encloses, Location.lastLine, Option.getD_some]
  omega

end InLines

/-! ## Lines of nodes -/

/-- The lines of the node `n` are lines of the source, those of its children are among them, and no
child starts on an earlier line than one before it. -/
structure Node.WellPlaced (source : List Char) (n : Node) : Prop where
  within : n.location.Within source
  encloses : ∀ c ∈ n.children, n.location.Encloses c.location
  ordered : n.children.Pairwise fun c d => c.location.line ≤ d.location.line

def Node.StandsIn (source : List Char) (w : List Token) (n : Node) : Prop :=
  ∃ t : Tree, t.Spells source n ∧ t.leaves.Sublist w

variable {w : List Token} {n : Node} {ns : List Node}

theorem SpelledIn.standsIn (h : SpelledIn source w ns) : ∀ n ∈ ns, n.StandsIn source w := by
  obtain ⟨ts, hts, hsub⟩ := h
  induction hts with
  | nil => simp
  | @cons t n ts ns ht _ ih =>
    refine List.forall_mem_cons.mpr ⟨⟨t, ht, ?_⟩, ih ?_⟩
    · exact (List.sublist_append_left _ _).trans hsub
    · exact (List.sublist_append_right _ _).trans hsub

namespace InLines

theorem exists_first (hw : InLines source w) (h : n.StandsIn source w) :
    ∃ first ∈ w, n.location.line = first.start.line := by
  obtain ⟨t, ht, hsub⟩ := h
  obtain ⟨first, hfirst, _, -, hplace, -⟩ := (hw.sublist hsub).exists_place ht.leaves_ne_nil
  exact ⟨first, hsub.subset hfirst, by rw [ht.location_eq, hplace]⟩

theorem ordered_of_spelledIn (hw : InLines source w) (h : SpelledIn source w ns) :
    ns.Pairwise fun c d => c.location.line ≤ d.location.line := by
  obtain ⟨ts, hts, hsub⟩ := h
  replace hw := hw.sublist hsub
  clear hsub
  induction hts with
  | nil => exact .nil
  | @cons t n ts ns ht hts ih =>
    have hfirst : InLines source t.leaves := hw.sublist (List.sublist_append_left _ _)
    have hothers : InLines source (Tree.leavesAll ts) :=
      hw.sublist (List.sublist_append_right _ _)
    have hlines := (List.pairwise_append.mp hw.ordered).2.2
    refine List.pairwise_cons.mpr ⟨fun c hc => ?_, ih hothers⟩
    obtain ⟨first, hmem, hline⟩ := hfirst.exists_first ⟨t, ht, .refl _⟩
    obtain ⟨first', hmem', hline'⟩ :=
      hothers.exists_first (SpelledIn.standsIn ⟨ts, hts, .refl _⟩ c hc)
    rw [hline, hline']
    exact Int.ofNat_le.mpr (hlines first hmem first' hmem')

theorem wellPlaced (hw : InLines source w) (h : n.StandsIn source w) : n.WellPlaced source := by
  obtain ⟨t, ht, hsub⟩ := h
  have hlines := hw.sublist hsub
  refine ⟨?_, fun c hc => ?_, hlines.ordered_of_spelledIn ht.children⟩
  · rw [ht.location_eq]
    exact hlines.within ht.leaves_ne_nil
  · obtain ⟨u, hu, hpart⟩ := ht.children.standsIn c hc
    rw [ht.location_eq, hu.location_eq]
    exact hlines.encloses hpart hu.leaves_ne_nil

theorem startsIn_location (hw : InLines source w) (h : n.StandsIn source w) :
    n.location.StartsIn source := by
  obtain ⟨t, ht, hsub⟩ := h
  rw [ht.location_eq]
  exact (hw.sublist hsub).startsIn ht.leaves_ne_nil

end InLines

theorem Node.StandsIn.children (h : n.StandsIn source w) :
    ∀ c ∈ n.children, c.StandsIn source w := by
  obtain ⟨t, ht, hsub⟩ := h
  intro c hc
  obtain ⟨u, hu, hpart⟩ := ht.children.standsIn c hc
  exact ⟨u, hu, hpart.trans hsub⟩

/-- However a source was repaired, the declarations of its program are spelled one behind the other
in the recovered tree, and all nodes stand in the tokens of that tree. -/
theorem exists_spelledIn_tops {r : Parsed} {p : Program} (hr : Parsed.ofSource source = .ok r)
    (hp : r.program = some p) :
    ∃ tree, (Parsing.recover (pieces source)).tree = some tree ∧
      SpelledIn source tree.leaves p.tops ∧ ∀ n ∈ p.nodes, n.StandsIn source tree.leaves := by
  obtain ⟨hprogram, -⟩ := parsed_eq_ok.mp hr
  rw [hp] at hprogram
  obtain ⟨tree, htree, hread⟩ := program_eq_some hprogram
  obtain ⟨hderives, -⟩ := Parsing.derives_recover htree
  have htops : SpelledIn source tree.leaves p.tops := (spells_of_reading hderives hread).tops
  exact ⟨tree, htree, htops, fun n hn =>
    Program.nodes_induction htops.standsIn (fun _ h => h.children) hn⟩

/-- In the program of a source, however it was repaired, every node stands well, and so do the
declarations among each other. -/
theorem wellPlaced_nodes {r : Parsed} {p : Program} (hr : Parsed.ofSource source = .ok r)
    (hp : r.program = some p) :
    (∀ n ∈ p.nodes, n.WellPlaced source ∧ n.location.StartsIn source) ∧
      p.tops.Pairwise fun c d => c.location.line ≤ d.location.line := by
  obtain ⟨tree, htree, htops, hnodes⟩ := exists_spelledIn_tops hr hp
  have hlines : InLines source tree.leaves := (Parsing.anchored_recover htree).inLines
  exact ⟨fun n hn => ⟨hlines.wellPlaced (hnodes n hn), hlines.startsIn_location (hnodes n hn)⟩,
    hlines.ordered_of_spelledIn htops⟩

end Sema
