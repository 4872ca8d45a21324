import Sema.Proofs.Grammar.Occurrences
import Sema.Proofs.Parsing.Prefixes

/-!
# The stack where a part of a tree is read

When the automaton gets to a part of a program's derivation, it has on its stack, for each node
above the part, the parts of that node that stand before it (`Spine`, `reads_occurs`). What is left
of a node leads to where its rule is complete (`reads_parts`).
-/

namespace Sema

namespace Automaton

namespace Stack

/-- What the automaton has on its stack where a part of the symbol `x` of a tree, with the nodes
`path` above it, is about to be read: for each node, the parts before, and the phrase that the node
makes can be passed under them. -/
inductive Spine : List Rule → GrammarSymbol → Stack → Prop
  | root : Spine [] (.phrase .program) []
  | part {path : List Rule} {x : GrammarSymbol} {σ frames : Stack} {r : Rule} {s : State}
      {rest : List GrammarSymbol} (below : Spine path (.phrase r.category) σ)
      (next : next? (state σ) (.phrase r.category) = some s)
      (parts : (trees frames).map Tree.symbol ++ x :: rest = r.body) :
      Spine (r :: path) x (frames ++ σ)

/-! ## Reading and feeding -/

theorem reads_iff {la : Lookahead} {σ σ' : Stack} {w : List Token} (hσ : Path σ) :
    Reads la σ w σ' ↔ ∃ τ, σ.feedAll w = some τ ∧ Reduces la τ σ' := by
  induction w generalizing σ with
  | nil =>
    constructor
    · rintro ⟨reduces⟩
      exact ⟨σ, rfl, reduces⟩
    · rintro ⟨τ, hτ, reduces⟩
      cases hτ
      exact .done reduces
  | cons t w ih =>
    simp only [feedAll_cons_eq_some]
    constructor
    · intro h
      cases h with
      | shift reduces hnext rest =>
        have hpath : Path (⟨_, .leaf t⟩ :: _) := .cons (reduces.path hσ).1 trivial hnext
        obtain ⟨τ, hτ, hreduces⟩ := (ih hpath).mp rest
        exact ⟨τ, ⟨_, (feed_eq_ok_iff hσ).mpr ⟨_, _, reduces, hnext, rfl⟩, hτ⟩, hreduces⟩
    · rintro ⟨τ, ⟨next, hfeed, hτ⟩, hreduces⟩
      have hpath := (path_of_feed_ok hσ hfeed).1
      obtain ⟨σ₁, s, reduces, hnext, rfl⟩ := (feed_eq_ok_iff hσ).mp hfeed
      exact .shift reduces hnext ((ih hpath).mpr ⟨τ, hτ, hreduces⟩)

theorem peek_append (la : Lookahead) (w w' : List Token) :
    peek la (w ++ w') = peek (peek la w') w := by
  cases w <;> rfl

/-! ## Reading up to a part -/

theorem reads_before {ts us : List Tree} (hts : Tree.AllWellFormed (ts ++ us)) {la : Lookahead}
    {σ : Stack} {e : State} {c : Category}
    (hwalk : walk (state σ) ((ts ++ us).map Tree.symbol) = some e)
    (hfollowed : Rule.followed c ((ts ++ us).map Tree.symbol) = true)
    (hla : c.allows la = true) :
    ∃ frames : Stack, trees frames = ts ∧
      walk (state (frames ++ σ)) (us.map Tree.symbol) = some e ∧
      Reads (peek la (Tree.leavesAll us)) σ (Tree.leavesAll ts) (frames ++ σ) := by
  induction ts generalizing σ with
  | nil => exact ⟨[], rfl, hwalk, .done .refl⟩
  | cons t ts ih =>
    obtain ⟨s, hnext, hwalk⟩ := Option.bind_eq_some_iff.mp hwalk
    have hfirst := reads_tree hts.1 (peek la (Tree.leavesAll (ts ++ us))) σ s hnext fun d hd =>
      allows_peek hts.2 hfollowed hla hd
    have hrest := Rule.followed_of_append [t.symbol] hfollowed
    obtain ⟨frames, htrees, hstate, hreads⟩ := @ih hts.2 (⟨s, t⟩ :: σ) hwalk hrest
    rw [Tree.leavesAll_append, peek_append] at hfirst
    refine ⟨frames ++ [⟨s, t⟩], ?_, ?_, ?_⟩
    · rw [trees_append, htrees]
      rfl
    · rw [List.append_assoc]
      exact hstate
    · rw [List.append_assoc]
      exact hfirst.append hreads

/-- Where a node is about to be read, the first of its parts are read, and the others lead to where
its rule is complete. -/
theorem exists_reads_before {r : Rule} {ts us : List Tree} {u v : List Token} {σ : Stack}
    {s : State} (hnode : (Tree.node r (ts ++ us)).WellFormed)
    (hreads : Reads (peek .endOfInput ((Tree.node r (ts ++ us)).leaves ++ v)) [] u σ)
    (hnext : next? (state σ) (.phrase r.category) = some s)
    (hla : r.category.allows (peek .endOfInput v) = true) :
    ∃ (frames : Stack) (e : State), trees frames = ts ∧
      Reads (peek .endOfInput (Tree.leavesAll us ++ v)) [] (u ++ Tree.leavesAll ts)
        (frames ++ σ) ∧
      walk (state (frames ++ σ)) (us.map Tree.symbol) = some e ∧ (row e).complete = some r := by
  obtain ⟨hbody, hparts⟩ := hnode
  obtain ⟨e, hwalk, hcomplete⟩ := exists_walk_body hnext
  have hfollowed := r.followed_body
  rw [← hbody] at hwalk hfollowed
  obtain ⟨frames, htrees, hstate, hbefore⟩ := reads_before hparts hwalk hfollowed hla
  rw [← peek_append] at hbefore
  have hwhole : (Tree.node r (ts ++ us)).leaves ++ v =
      Tree.leavesAll ts ++ (Tree.leavesAll us ++ v) := by
    rw [Tree.leaves, Tree.leavesAll_append, List.append_assoc]
  rw [hwhole, peek_append] at hreads
  exact ⟨frames, e, htrees, hreads.append hbefore, hstate, hcomplete⟩

variable {root : Tree} {path : List Rule} {u v : List Token}

/-- The automaton gets to every part of the derivation of a program, with the parts before it on the
stack, where the symbol of the part can be passed and what comes behind it may follow. -/
theorem reads_occurs {t : Tree} (hroot : root.WellFormed)
    (hprogram : root.symbol = .phrase .program) (h : root.Occurs path u t v) :
    ∃ σ s, Spine path t.symbol σ ∧ Reads (peek .endOfInput (t.leaves ++ v)) [] u σ ∧
      next? (state σ) t.symbol = some s ∧
      ∀ c, t.symbol = .phrase c → c.allows (peek .endOfInput v) = true := by
  induction h with
  | root =>
    refine ⟨[], final, hprogram ▸ .root, .done .refl, hprogram ▸ next?_initial_program,
      fun c hc => ?_⟩
    rw [hprogram] at hc
    cases hc
    rfl
  | @part path u v r ts us t whole ih =>
    obtain ⟨σ, s, hspine, hreads, hnext, hallows⟩ := ih
    have hnode := whole.wellFormed hroot
    obtain ⟨frames, e, htrees, hbefore, hwalk, -⟩ :=
      exists_reads_before hnode hreads hnext (hallows _ rfl)
    obtain ⟨s', hnext', -⟩ := Option.bind_eq_some_iff.mp hwalk
    have hbody : (trees frames).map Tree.symbol ++ (t :: us).map Tree.symbol = r.body := by
      rw [htrees, ← hnode.1, List.map_append]
    refine ⟨frames ++ σ, s', .part hspine hnext hbody, ?_, hnext',
      fun c hc => ?_⟩
    · rw [Tree.leavesAll, List.append_assoc] at hbefore
      exact hbefore
    · have hfollowed := r.followed_body
      rw [← hnode.1, List.map_append] at hfollowed
      rw [peek_append]
      exact allows_peek (Tree.allWellFormed_append_cons hnode.2).2.2
        (Rule.followed_of_append _ hfollowed) (hallows _ rfl) hc

/-- The parts of a node that stand at the end lead to where the rule of the node is complete. -/
theorem reads_parts {r : Rule} {ts us : List Tree} {t : Tree} (hroot : root.WellFormed)
    (hprogram : root.symbol = .phrase .program)
    (h : root.Occurs path u (.node r (ts ++ t :: us)) v) :
    ∃ σ e, Spine (r :: path) t.symbol σ ∧
      Reads (peek .endOfInput (Tree.leavesAll (t :: us) ++ v)) [] (u ++ Tree.leavesAll ts) σ ∧
      walk (state σ) ((t :: us).map Tree.symbol) = some e ∧ (row e).complete = some r := by
  obtain ⟨σ, s, hspine, hreads, hnext, hallows⟩ := reads_occurs hroot hprogram h
  have hnode := h.wellFormed hroot
  obtain ⟨frames, e, htrees, hbefore, hwalk, hcomplete⟩ :=
    exists_reads_before hnode hreads hnext (hallows _ rfl)
  have hbody : (trees frames).map Tree.symbol ++ (t :: us).map Tree.symbol = r.body := by
    rw [htrees, ← hnode.1, List.map_append]
  exact ⟨frames ++ σ, e, .part hspine hnext hbody, hbefore, hwalk, hcomplete⟩

end Stack

end Automaton

end Sema
