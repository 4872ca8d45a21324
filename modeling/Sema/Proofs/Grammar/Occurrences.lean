import Sema.Proofs.Grammar.Unambiguous

/-!
# Parts of a derivation tree

Where a tree stands in another (`Occurs`): the rules of the nodes above it, and the tokens before
and after it. A part may be replaced by another tree of its symbol (`Occurs.replace`).
-/

namespace Sema

namespace Tree

@[elab_as_elim]
theorem ind {motive : Tree → Prop} (leaf : ∀ token, motive (.leaf token))
    (node : ∀ r ts, (∀ t ∈ ts, motive t) → motive (.node r ts)) : ∀ t, motive t
  | .leaf token => leaf token
  | .node r ts => node r ts fun t ht =>
    have hlt : sizeOf t < sizeOf (Tree.node r ts) := by
      have := List.sizeOf_lt_of_mem ht
      simp only [Tree.node.sizeOf_spec]
      omega
    ind leaf node t
termination_by t => sizeOf t
decreasing_by exact hlt

/-- The tree `t` occurs in `root`: `path` has the rules of the nodes above it, the nearest first,
`u` the tokens before it and `v` those after it. -/
inductive Occurs (root : Tree) : List Rule → List Token → Tree → List Token → Prop
  | root : Occurs root [] [] root []
  | part {path : List Rule} {u v : List Token} {r : Rule} {ts us : List Tree} {t : Tree}
      (whole : Occurs root path u (.node r (ts ++ t :: us)) v) :
      Occurs root (r :: path) (u ++ leavesAll ts) t (leavesAll us ++ v)

variable {root t : Tree} {path : List Rule} {u v : List Token}

theorem leavesAll_append (ts us : List Tree) :
    leavesAll (ts ++ us) = leavesAll ts ++ leavesAll us :=
  Automaton.Stack.leavesAll_append ts us

theorem allWellFormed_append_cons {ts us : List Tree} {t : Tree}
    (h : AllWellFormed (ts ++ t :: us)) : AllWellFormed ts ∧ t.WellFormed ∧ AllWellFormed us := by
  simp only [Automaton.Stack.allWellFormed_iff, List.mem_append, List.mem_cons] at h ⊢
  exact ⟨fun t' ht' => h t' (.inl ht'), h t (.inr (.inl rfl)),
    fun t' ht' => h t' (.inr (.inr ht'))⟩

namespace Occurs

theorem leaves (h : Occurs root path u t v) : root.leaves = u ++ (t.leaves ++ v) := by
  induction h with
  | root => simp
  | part _ ih =>
    rw [ih, Tree.leaves, leavesAll_append, leavesAll]
    simp only [List.append_assoc]

theorem wellFormed (h : Occurs root path u t v) (hroot : root.WellFormed) : t.WellFormed := by
  induction h with
  | root => exact hroot
  | part _ ih => exact (allWellFormed_append_cons ih.2).2.1

theorem trans {path' : List Rule} {u' v' : List Token} {t' : Tree} (h : Occurs root path u t v)
    (h' : Occurs t path' u' t' v') : Occurs root (path' ++ path) (u ++ u') t' (v' ++ v) := by
  induction h' with
  | root => simpa using h
  | part _ ih =>
    have hpart := Occurs.part ih
    simpa only [List.append_assoc, List.cons_append] using hpart

theorem parent {r : Rule} (h : Occurs root (r :: path) u t v) :
    ∃ ts us u' v', Occurs root path u' (.node r (ts ++ t :: us)) v' ∧ u = u' ++ leavesAll ts ∧
      v = leavesAll us ++ v' := by
  cases h with
  | part whole => exact ⟨_, _, _, _, whole, rfl, rfl⟩

theorem symbol_mem_body {r : Rule} (h : Occurs root (r :: path) u t v) (hroot : root.WellFormed) :
    t.symbol ∈ r.body := by
  cases h with
  | part whole =>
    rw [← (whole.wellFormed hroot).1]
    simp

theorem only {r : Rule} {x : GrammarSymbol} (h : Occurs root (r :: path) u t v)
    (hroot : root.WellFormed) (hr : r.body = [x]) : Occurs root path u (.node r [t]) v := by
  obtain ⟨ts, us, u', v', hwhole, rfl, rfl⟩ := h.parent
  have hlength := congrArg List.length ((hwhole.wellFormed hroot).1.trans hr)
  simp only [List.length_map, List.length_append, List.length_cons, List.length_nil] at hlength
  obtain rfl : ts = [] := List.eq_nil_of_length_eq_zero (by omega)
  obtain rfl : us = [] := List.eq_nil_of_length_eq_zero (by omega)
  simpa [leavesAll] using hwhole

/-- A part may be replaced by any tree of its symbol. -/
theorem replace (h : Occurs root path u t v) (hroot : root.WellFormed) {t' : Tree}
    (ht' : t'.WellFormed) (hsymbol : t'.symbol = t.symbol) :
    ∃ root' : Tree, root'.Derives root.symbol (u ++ (t'.leaves ++ v)) := by
  induction h generalizing t' with
  | root => exact ⟨t', ht', hsymbol, by simp⟩
  | @part path u v r ts us t whole ih =>
    obtain ⟨hbody, hparts⟩ := whole.wellFormed hroot
    obtain ⟨hts, -, hus⟩ := allWellFormed_append_cons hparts
    have hnode : (node r (ts ++ t' :: us)).WellFormed := by
      refine ⟨?_, allWellFormed_append hts ⟨ht', hus⟩⟩
      rw [← hbody, List.map_append, List.map_cons, List.map_append, List.map_cons, hsymbol]
    obtain ⟨root', hroot'⟩ := ih hnode rfl
    rw [Tree.leaves, leavesAll_append, leavesAll] at hroot'
    exact ⟨root', by simpa only [List.append_assoc] using hroot'⟩

end Occurs

end Tree

end Sema
