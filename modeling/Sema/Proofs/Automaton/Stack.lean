import Sema.Automaton.Stack
import Sema.Proofs.Automaton.Table

/-!
# Stacks of the automaton

The invariant of parsing: the states of a stack follow each other along the symbols of its trees,
and the trees are well formed (`Path`). Then the parts that a complete rule takes from the stack are
those that the rule asks for (`symbols_take_of_complete`), so applying it keeps the invariant and
the tokens that have been read (`path_reduce?`). The state under these parts can be passed with the
phrase that they make, so a complete rule can always be applied (`exists_reduce?`).

Applying rules comes to an end, as each makes the work that is left smaller (`work_reduce?`). So a
settled stack is one on which the lookahead lets nothing more be applied (`settled_settle`), and
asks for nothing more either (`action?_settle_ne_reduce`).
-/

namespace Sema

namespace Automaton

/-! ## Actions -/

theorem action?_eq_reduce {s : State} {la : Lookahead} {r : Rule}
    (h : action? s la = some (.reduce r)) :
    (row s).complete = some r ∧ r.category.allows la = true := by
  have hr : (row s).reduction? la = some r := by
    unfold action? at h
    split at h
    · cases h
    · cases la with
      | token kind =>
        unfold Row.action? at h
        dsimp only at h
        split at h
        · cases h
        · simpa using h
      | endOfInput =>
        unfold Row.action? at h
        simpa using h
  simpa [Row.reduction?, Option.filter_eq_some_iff] using hr

theorem action?_eq_shift_iff {s s' : State} {kind : Terminal} :
    action? s (.token kind) = some (.shift s') ↔ next? s (.terminal kind) = some s' := by
  simp only [action?, reduceCtorEq, and_false, if_false, Row.action?, next?, Row.next?]
  cases (row s).shifts.lookup kind with
  | some next => simp
  | none => simp

theorem action?_of_complete {s : State} {la : Lookahead} {r : Rule}
    (hr : (row s).complete = some r) (hla : r.category.allows la = true) :
    action? s la = some (.reduce r) := by
  have hfinal : s ≠ final := by
    rintro rfl
    rw [complete_final] at hr
    cases hr
  have hreduction : (row s).reduction? la = some r := by
    rw [Row.reduction?, hr, Option.filter_some, if_pos hla]
  unfold action?
  rw [if_neg fun h => hfinal h.1]
  cases la with
  | token kind =>
    simp only [Row.action?, shifts_eq_none_of_complete hr hla, hreduction, Option.map_some]
  | endOfInput => simp only [Row.action?, hreduction, Option.map_some]

namespace Stack

/-! ## Paths -/

def trees (σ : Stack) : List Tree :=
  (σ.map (·.tree)).reverse

def leaves (σ : Stack) : List Token :=
  Tree.leavesAll σ.trees

def symbols (σ : Stack) : List GrammarSymbol :=
  σ.map (·.tree.symbol)

/-- The states follow each other along the symbols of the trees, which are well formed. -/
inductive Path : Stack → Prop
  | nil : Path []
  | cons {frame : Frame} {σ : Stack} (below : Path σ) (tree : frame.tree.WellFormed)
      (next : next? (state σ) frame.tree.symbol = some frame.state) : Path (frame :: σ)

theorem Path.drop {σ : Stack} (h : Path σ) (n : Nat) : Path (σ.drop n) := by
  induction h generalizing n with
  | nil => simpa using Path.nil
  | cons below tree next ih =>
    cases n with
    | zero => exact .cons below tree next
    | succ n => exact ih n

theorem Path.allWellFormed {σ : Stack} (h : Path σ) : ∀ frame ∈ σ, frame.tree.WellFormed := by
  induction h with
  | nil => simp
  | cons _ tree _ ih => simpa using ⟨tree, ih⟩

theorem past_prefix_symbols {σ : Stack} (h : Path σ) : past (state σ) <+: symbols σ := by
  induction h with
  | nil => simp [state, past_initial]
  | @cons frame σ _ _ next ih =>
    have hstep : past frame.state <+: frame.tree.symbol :: past (state σ) := past_of_next? next
    have hcons : frame.tree.symbol :: past (state σ) <+: frame.tree.symbol :: symbols σ :=
      (List.cons_prefix_cons).mpr ⟨rfl, ih⟩
    exact hstep.trans hcons

/-- The frames that a complete rule takes are its parts. -/
theorem symbols_take_of_complete {σ : Stack} {r : Rule} (hσ : Path σ)
    (hr : (row (state σ)).complete = some r) :
    symbols (σ.take r.body.length) = r.body.reverse := by
  have hprefix := (body_of_complete hr).trans (past_prefix_symbols hσ)
  have htake := List.prefix_iff_eq_take.mp hprefix
  rw [List.length_reverse] at htake
  rw [symbols, List.map_take, htake, symbols]

/-! ## Applying a rule -/

theorem reduce?_eq_some {r : Rule} {σ σ' : Stack} (h : reduce? r σ = some σ') :
    ∃ s, next? (state (σ.drop r.body.length)) (.phrase r.category) = some s ∧
      σ' = ⟨s, .node r (trees (σ.take r.body.length))⟩ :: σ.drop r.body.length := by
  simp only [reduce?, Option.map_eq_some_iff] at h
  obtain ⟨s, hs, rfl⟩ := h
  exact ⟨s, hs, rfl⟩

theorem trees_append (σ τ : Stack) : trees (σ ++ τ) = trees τ ++ trees σ := by
  rw [trees, List.map_append, List.reverse_append, trees, trees]

theorem leavesAll_append (ts us : List Tree) :
    Tree.leavesAll (ts ++ us) = Tree.leavesAll ts ++ Tree.leavesAll us := by
  induction ts with
  | nil => rfl
  | cons t ts ih => rw [List.cons_append, Tree.leavesAll, Tree.leavesAll, ih, List.append_assoc]

theorem leaves_append (σ τ : Stack) : leaves (σ ++ τ) = leaves τ ++ leaves σ := by
  rw [leaves, trees_append, leavesAll_append, leaves, leaves]

@[simp] theorem leaves_nil : leaves [] = [] := rfl

theorem leaves_cons (frame : Frame) (σ : Stack) :
    leaves (frame :: σ) = leaves σ ++ frame.tree.leaves := by
  have h := leaves_append [frame] σ
  simpa [leaves, trees, Tree.leavesAll] using h

theorem allWellFormed_iff {ts : List Tree} :
    Tree.AllWellFormed ts ↔ ∀ t ∈ ts, t.WellFormed := by
  induction ts with
  | nil => simp [Tree.AllWellFormed]
  | cons t ts ih => simp [Tree.AllWellFormed, ih]

/-- A rule is applied to its parts: the new tree is well formed and has the same tokens. -/
theorem path_reduce? {σ σ' : Stack} {r : Rule} (hσ : Path σ)
    (hr : (row (state σ)).complete = some r) (h : reduce? r σ = some σ') :
    Path σ' ∧ leaves σ' = leaves σ := by
  obtain ⟨s, hnext, rfl⟩ := reduce?_eq_some h
  have hparts : (trees (σ.take r.body.length)).map Tree.symbol = r.body := by
    have hsymbols := symbols_take_of_complete hσ hr
    rw [trees, List.map_reverse, List.map_map]
    exact List.reverse_eq_iff.mpr hsymbols
  have htrees : Tree.AllWellFormed (trees (σ.take r.body.length)) := by
    refine allWellFormed_iff.mpr fun t ht => ?_
    obtain ⟨frame, hframe, rfl⟩ := List.mem_map.mp (List.mem_reverse.mp ht)
    exact hσ.allWellFormed frame (List.mem_of_mem_take hframe)
  refine ⟨.cons (hσ.drop _) ⟨hparts, htrees⟩ hnext, ?_⟩
  calc leaves (⟨s, .node r (trees (σ.take r.body.length))⟩ :: σ.drop r.body.length)
    _ = leaves (σ.drop r.body.length) ++ leaves (σ.take r.body.length) := leaves_cons _ _
    _ = leaves (σ.take r.body.length ++ σ.drop r.body.length) := (leaves_append _ _).symm
    _ = leaves σ := by rw [List.take_append_drop]

theorem walk_symbols_take {σ : Stack} (hσ : Path σ) (n : Nat) :
    walk (state (σ.drop n)) (symbols (σ.take n)).reverse = some (state σ) := by
  induction hσ generalizing n with
  | nil => simp [symbols, walk]
  | @cons frame σ _ _ next ih =>
    cases n with
    | zero => rfl
    | succ n =>
      have hnewest : symbols ((frame :: σ).take (n + 1)) =
          frame.tree.symbol :: symbols (σ.take n) := rfl
      rw [hnewest, List.reverse_cons, List.drop_succ_cons, walk_append, ih n, Option.bind_some,
        walk, next]
      rfl

/-- A complete rule can be applied. -/
theorem exists_reduce? {σ : Stack} {r : Rule} (hσ : Path σ)
    (hr : (row (state σ)).complete = some r) : ∃ σ', reduce? r σ = some σ' := by
  have hwalk := walk_symbols_take hσ r.body.length
  rw [symbols_take_of_complete hσ hr, List.reverse_reverse] at hwalk
  obtain ⟨s, hs⟩ := exists_goto_of_walk hwalk hr
  exact ⟨_, by rw [reduce?, hs, Option.map_some]⟩

/-! ## The work that is left -/

/-- How deep a category lies under those that consist of it alone. -/
def depth : Category → Nat
  | .program | .stmts | .forInit | .forCond | .forUpdate | .args | .params | .typeName => 0
  | .decls | .stmt | .expr | .param => 1
  | .decl | .assign => 2
  | .varDecl | .funcDef | .orExpr => 3
  | .varSpec | .andExpr => 4
  | .eqExpr => 5
  | .relExpr => 6
  | .addExpr => 7
  | .mulExpr => 8
  | .unary => 9
  | .atom => 10
  | _ => 2

theorem depth_lt_of_body {r : Rule} {c : Category} (h : r.body = [.phrase c]) :
    depth r.category < depth c := by
  have hall := Rule.of_all_rules (p := fun r => Category.all.all fun c =>
    !(r.body == [.phrase c]) || decide (depth r.category < depth c)) (by decide +kernel) r
  have hc := List.all_eq_true.mp hall c c.mem_all
  simpa [h] using hc

/-- Rules of one part come after each other from deep categories to shallow ones. -/
def rank (r : Rule) : Nat :=
  if r.body.length = 1 then depth r.category + 1 else 0

def work (σ : Stack) : Nat :=
  (row (state σ)).complete.elim 0 fun r => 16 * σ.length + rank r + 1

theorem rank_le (r : Rule) : rank r ≤ 11 := by
  have hdepth : depth r.category ≤ 10 := by cases r.category <;> decide
  unfold rank
  split <;> omega

theorem work_le (σ : Stack) : work σ ≤ 16 * (σ.length + 2) := by
  unfold work
  cases (row (state σ)).complete with
  | none => simp
  | some r =>
    have := rank_le r
    simp only [Option.elim_some]
    omega

theorem exists_body_of_goto {s s' : State} {c : Category} {r : Rule}
    (h : next? s (.phrase c) = some s') (hr : (row s').complete = some r) :
    ∃ rest, r.body.reverse = .phrase c :: rest := by
  have hprefix := (body_of_complete hr).trans (past_of_next? h)
  have hne := (complete_of_goto h hr).2
  cases hb : r.body.reverse with
  | nil => exact absurd (List.reverse_eq_nil_iff.mp hb) hne
  | cons x rest =>
    rw [hb] at hprefix
    rw [(List.cons_prefix_cons.mp hprefix).1]
    exact ⟨rest, rfl⟩

theorem rank_lt_of_goto {s s' : State} {r r' : Rule} (hlen : r.body.length = 1)
    (h : next? s (.phrase r.category) = some s') (hr' : (row s').complete = some r') :
    rank r' < rank r := by
  obtain ⟨rest, hrest⟩ := exists_body_of_goto h hr'
  have hrank : rank r = depth r.category + 1 := if_pos hlen
  rw [hrank]
  by_cases hlen' : r'.body.length = 1
  · have hnil : rest = [] := by
      have := congrArg List.length hrest
      rw [List.length_reverse, List.length_cons, hlen'] at this
      exact List.eq_nil_of_length_eq_zero (by omega)
    have hbody : r'.body = [.phrase r.category] := by
      rw [hnil] at hrest
      exact List.reverse_eq_iff.mp hrest
    have hdepth := depth_lt_of_body hbody
    have hrank' : rank r' = depth r'.category + 1 := if_pos hlen'
    omega
  · have hrank' : rank r' = 0 := if_neg hlen'
    omega

/-- Each rule that is applied leaves less work. -/
theorem work_reduce? {σ σ' : Stack} {r : Rule} (hσ : Path σ)
    (hr : (row (state σ)).complete = some r) (h : reduce? r σ = some σ') : work σ' < work σ := by
  obtain ⟨s, hnext, rfl⟩ := reduce?_eq_some h
  have hwork : work σ = 16 * σ.length + rank r + 1 := by rw [work, hr, Option.elim_some]
  have hlen : r.body.length ≤ σ.length := by
    have := congrArg List.length (symbols_take_of_complete hσ hr)
    simp only [symbols, List.length_map, List.length_take, List.length_reverse] at this
    omega
  rw [hwork, work]
  cases hr' : (row (state (⟨s, .node r (trees (σ.take r.body.length))⟩ ::
      σ.drop r.body.length))).complete with
  | none =>
    simp only [Option.elim_none]
    omega
  | some r' =>
    have hrank' := rank_le r'
    simp only [Option.elim_some, List.length_cons, List.length_drop]
    -- no rule is complete after one without parts; one of a single part keeps the length of the
    -- stack but lowers the rank; all others shorten the stack
    by_cases h0 : r.body.length = 0
    · have hempty := (complete_of_goto hnext hr').1
      have hbody : r.body = [] := List.eq_nil_of_length_eq_zero h0
      rw [r.isEmptiable_body (by rw [hbody]; rfl)] at hempty
      cases hempty
    · by_cases h1 : r.body.length = 1
      · have hrank := rank_lt_of_goto h1 hnext hr'
        omega
      · omega

/-! ## Settling -/

/-- Rules are applied, with a lookahead that allows it. -/
inductive Reduces (la : Lookahead) : Stack → Stack → Prop
  | refl {σ : Stack} : Reduces la σ σ
  | step {σ σ₁ σ' : Stack} {r : Rule} (action : action? (state σ) la = some (.reduce r))
      (reduce : reduce? r σ = some σ₁) (rest : Reduces la σ₁ σ') : Reduces la σ σ'

def Settled (la : Lookahead) (σ : Stack) : Prop :=
  ∀ r, action? (state σ) la = some (.reduce r) → reduce? r σ = none

theorem Reduces.trans {la : Lookahead} {σ₁ σ₂ σ₃ : Stack} (h : Reduces la σ₁ σ₂)
    (h' : Reduces la σ₂ σ₃) : Reduces la σ₁ σ₃ := by
  induction h with
  | refl => exact h'
  | step action reduce _ ih => exact .step action reduce (ih h')

theorem Reduces.path {la : Lookahead} {σ σ' : Stack} (h : Reduces la σ σ') (hσ : Path σ) :
    Path σ' ∧ leaves σ' = leaves σ := by
  induction h with
  | refl => exact ⟨hσ, rfl⟩
  | step action reduce _ ih =>
    obtain ⟨hpath, hleaves⟩ := path_reduce? hσ (action?_eq_reduce action).1 reduce
    obtain ⟨hpath', hleaves'⟩ := ih hpath
    exact ⟨hpath', hleaves'.trans hleaves⟩

theorem Reduces.unique {la : Lookahead} {σ σ₁ σ₂ : Stack} (h₁ : Reduces la σ σ₁)
    (h₂ : Reduces la σ σ₂) (hs₁ : Settled la σ₁) (hs₂ : Settled la σ₂) : σ₁ = σ₂ := by
  induction h₁ with
  | refl =>
    cases h₂ with
    | refl => rfl
    | step action reduce _ => rw [hs₁ _ action] at reduce; cases reduce
  | step action reduce _ ih =>
    cases h₂ with
    | refl => rw [hs₂ _ action] at reduce; cases reduce
    | step action' reduce' rest' =>
      rw [action] at action'
      cases action'
      rw [reduce] at reduce'
      cases reduce'
      exact ih rest' hs₁

theorem settleWithin_succ_of_reduce {la : Lookahead} {n : Nat} {σ σ' : Stack} {r : Rule}
    (action : action? (state σ) la = some (.reduce r)) (reduce : reduce? r σ = some σ') :
    settleWithin la (n + 1) σ = settleWithin la n σ' := by
  simp only [settleWithin, action, reduce, Option.elim_some]

theorem settleWithin_of_settled {la : Lookahead} {n : Nat} {σ : Stack} (hs : Settled la σ) :
    settleWithin la n σ = σ := by
  cases n with
  | zero => rfl
  | succ n =>
    simp only [settleWithin]
    split
    · next r action => rw [hs r action, Option.elim_none]
    · rfl

theorem settled_or_reduces (la : Lookahead) (σ : Stack) :
    Settled la σ ∨ ∃ r σ', action? (state σ) la = some (.reduce r) ∧ reduce? r σ = some σ' := by
  by_cases hs : Settled la σ
  · exact .inl hs
  · simp only [Settled, Classical.not_forall] at hs
    obtain ⟨r, action, hne⟩ := hs
    obtain ⟨σ', reduce⟩ := Option.ne_none_iff_exists'.mp hne
    exact .inr ⟨r, σ', action, reduce⟩

theorem reduces_settleWithin (la : Lookahead) (n : Nat) (σ : Stack) :
    Reduces la σ (settleWithin la n σ) := by
  induction n generalizing σ with
  | zero => exact .refl
  | succ n ih =>
    rcases settled_or_reduces la σ with hs | ⟨r, σ', action, reduce⟩
    · rw [settleWithin_of_settled hs]
      exact .refl
    · rw [settleWithin_succ_of_reduce action reduce]
      exact .step action reduce (ih σ')

theorem settled_settleWithin {la : Lookahead} {n : Nat} {σ : Stack} (hσ : Path σ)
    (hn : work σ ≤ n) : Settled la (settleWithin la n σ) := by
  induction n generalizing σ with
  | zero =>
    intro r action
    have hr : (row (state σ)).complete = some r := (action?_eq_reduce action).1
    rw [work, hr, Option.elim_some] at hn
    omega
  | succ n ih =>
    rcases settled_or_reduces la σ with hs | ⟨r, σ', action, reduce⟩
    · rw [settleWithin_of_settled hs]
      exact hs
    · rw [settleWithin_succ_of_reduce action reduce]
      have hr := (action?_eq_reduce action).1
      have hless := work_reduce? hσ hr reduce
      exact ih (path_reduce? hσ hr reduce).1 (by omega)

theorem reduces_settle (la : Lookahead) (σ : Stack) : Reduces la σ (settle la σ) :=
  reduces_settleWithin la _ σ

theorem settled_settle {la : Lookahead} {σ : Stack} (hσ : Path σ) : Settled la (settle la σ) :=
  settled_settleWithin hσ (work_le σ)

/-- A stack is settled only where the table asks for no more rule. -/
theorem action?_settle_ne_reduce {σ : Stack} (hσ : Path σ) (la : Lookahead) (r : Rule) :
    action? (state (settle la σ)) la ≠ some (.reduce r) := by
  intro action
  obtain ⟨hpath, -⟩ := (reduces_settle la σ).path hσ
  obtain ⟨σ', reduce⟩ := exists_reduce? hpath (action?_eq_reduce action).1
  rw [settled_settle hσ r action] at reduce
  cases reduce

theorem settle_eq {la : Lookahead} {σ σ' : Stack} (hσ : Path σ) (h : Reduces la σ σ')
    (hs : Settled la σ') : settle la σ = σ' :=
  (reduces_settle la σ).unique h (settled_settle hσ) hs

theorem settle_of_settled {la : Lookahead} {σ : Stack} (hs : Settled la σ) : settle la σ = σ :=
  settleWithin_of_settled hs

end Stack

end Automaton

end Sema