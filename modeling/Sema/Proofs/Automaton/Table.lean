import Sema.Automaton.Table
import Sema.Proofs.Grammar.First

/-!
# What the table of the automaton is checked for

Six facts on the finite table, from which all else on the automaton follows.

* A state from which a phrase can be passed has a path for the parts of each of the phrase's rules,
  and the path ends where that rule is complete (`exists_walk_body`).
* A state from which the parts of a rule lead to where the rule is complete can be passed with the
  phrase (`exists_goto_of_walk`).
* Where a rule is complete, no token that may follow its category can be shifted
  (`shifts_eq_none_of_complete`).
* The symbols on the way to a state end with those that the state is known by (`past`), however it
  was reached (`past_of_next?`); these have the parts of the rule that is complete
  (`body_of_complete`).
* After a phrase, no rule without parts is complete, and none at all if the phrase may be without
  tokens (`complete_of_goto`).
* Nothing leads back to the first state, and only a program in the first leads to the last
  (`initial_of_next?`).

What is checked of steps is evaluated at once, and so is what is checked of states, as most of the
time goes into finding the rows (`checked_of_next?`, `checked_of_state`).
-/

namespace Sema

namespace Automaton

/-! ## Edges -/

def edges (s : State) : List (GrammarSymbol × State) :=
  (row s).shifts.map (fun e => (.terminal e.1, e.2)) ++
    (row s).gotos.map (fun e => (.phrase e.1, e.2))

theorem mem_of_lookup {α β : Type} [BEq α] [LawfulBEq α] {l : List (α × β)} {a : α} {b : β}
    (h : l.lookup a = some b) : (a, b) ∈ l := by
  obtain ⟨l₁, l₂, rfl, -⟩ := List.lookup_eq_some_iff.mp h
  exact List.mem_append_right _ List.mem_cons_self

theorem mem_edges {s s' : State} {x : GrammarSymbol} (h : next? s x = some s') :
    (x, s') ∈ edges s := by
  cases x with
  | terminal kind =>
    have hmem := mem_of_lookup (h : (row s).shifts.lookup kind = some s')
    exact List.mem_append_left _ (List.mem_map.mpr ⟨_, hmem, rfl⟩)
  | phrase c =>
    have hmem := mem_of_lookup (h : (row s).gotos.lookup c = some s')
    exact List.mem_append_right _ (List.mem_map.mpr ⟨_, hmem, rfl⟩)

theorem of_all_states {p : State → Bool} (h : (List.range rows.size).all p)
    (hempty : ∀ s, row s = Row.empty → p s = true) (s : State) : p s = true := by
  by_cases hs : s < rows.size
  · exact List.all_eq_true.mp h s (List.mem_range.mpr hs)
  · apply hempty
    rw [row, Array.getD_eq_getD_getElem?, Array.getElem?_eq_none (Nat.le_of_not_lt hs)]
    rfl

theorem of_all_edges {p : State → GrammarSymbol → State → Bool}
    (h : (List.range rows.size).all fun s => (edges s).all fun e => p s e.1 e.2) {s s' : State}
    {x : GrammarSymbol} (hnext : next? s x = some s') : p s x s' = true := by
  have hs := of_all_states h (fun s hs => by simp [edges, hs, Row.empty]) s
  exact List.all_eq_true.mp hs _ (mem_edges hnext)

/-- Whether a check holds of the category of a symbol that is a phrase. -/
def ofPhrase (p : Category → Bool) : GrammarSymbol → Bool
  | .terminal _ => true
  | .phrase c => p c

/-! ## Paths for rules -/

def walk (s : State) : List GrammarSymbol → Option State
  | [] => some s
  | x :: xs => (next? s x).bind fun s' => walk s' xs

theorem walk_append (s : State) (xs ys : List GrammarSymbol) :
    walk s (xs ++ ys) = (walk s xs).bind fun s' => walk s' ys := by
  induction xs generalizing s with
  | nil => rfl
  | cons x xs ih =>
    rw [List.cons_append, walk, walk]
    cases next? s x with
    | none => rfl
    | some s' => exact ih s'

/-- Whether a phrase can be passed if the parts of its rule lead to where the rule is complete. -/
def passes (s : State) (r : Rule) : Bool :=
  (walk s r.body).all fun e =>
    (row e).complete != some r || (next? s (.phrase r.category)).isSome

theorem passes_of_row_eq_empty {s : State} (hs : row s = Row.empty) (r : Rule) :
    passes s r = true := by
  unfold passes
  cases r.body with
  | nil => simp [walk, hs, Row.empty]
  | cons x xs =>
    have hnext : next? s x = none := by cases x <;> simp [next?, Row.next?, hs, Row.empty]
    simp [walk, hnext]

/-! ## The past of a state -/

/-- For the states that are in the middle of a rule, and at the end of none or of one without parts
only: the rule, and how many of its parts have been read. -/
def inProgress : List (State × Rule × Nat) :=
  [(6, .varDecl, 1), (7, .funcDef .typed false, 1), (8, .funcDef .void false, 1),
    (9, .funcDef .absent false, 1), (10, .varSpec true false, 1), (18, .funcDef .void false, 2),
    (19, .funcDef .absent false, 2), (20, .varSpec true false, 2), (21, .varSpec false true, 3),
    (22, .funcDef .typed false, 3), (23, .funcDef .void false, 3), (24, .funcDef .absent true, 3),
    (25, .funcDef .absent false, 3), (27, .param, 1), (30, .funcDef .typed true, 4),
    (31, .funcDef .typed false, 4), (32, .funcDef .void true, 4), (33, .funcDef .void false, 4),
    (34, .funcDef .absent true, 4), (37, .paramTailFirst, 1), (39, .varSpec true true, 4),
    (40, .funcDef .typed true, 5), (42, .funcDef .void true, 5), (45, .varSpec false false, 1),
    (46, .paramTailMore, 2), (53, .blockEmpty, 1), (54, .blockFull, 2), (64, .exprStmt, 1),
    (65, .ifElse, 1), (66, .whileLoop, 1), (67, .forLoop, 1), (68, .returnBare, 1),
    (72, .ifElse, 2), (73, .whileLoop, 2), (74, .forLoop, 2), (75, .returnValue, 2),
    (77, .ifElse, 3), (78, .whileLoop, 3), (79, .forLoop, 3), (83, .ifElse, 4), (84, .whileLoop, 4),
    (85, .forLoop, 4), (88, .forLoop, 5), (90, .ifElse, 6), (91, .forLoop, 6), (94, .forLoop, 7),
    (96, .forLoop, 8), (107, .unaryNot, 1), (112, .paren, 1), (113, .assignTo, 2),
    (114, .callArgs, 2), (115, .binary .or, 2), (116, .binary .and, 2), (117, .binary .eq, 2),
    (118, .binary .ne, 2), (119, .binary .lt, 2), (120, .binary .le, 2), (121, .binary .gt, 2),
    (122, .binary .ge, 2), (123, .binary .add, 2), (124, .binary .sub, 2), (125, .binary .mul, 2),
    (126, .binary .div, 2), (129, .paren, 2), (131, .callArgs, 3), (149, .argTailFirst, 1),
    (150, .argTailMore, 2)]

/-- The symbols with which every way to a state ends, the last one first. -/
def past (s : State) : List GrammarSymbol :=
  match inProgress.lookup s with
  | some (rule, n) => (rule.body.take n).reverse
  | none => (row s).complete.elim [] fun rule => rule.body.reverse

/-! ## The first and the last state -/

theorem past_initial : past initial = [] := by decide +kernel

theorem next?_initial_program : next? initial (.phrase .program) = some final := by decide +kernel

theorem complete_final : (row final).complete = none := by decide +kernel

/-! ## Checks -/

/-- Whether the parts of each rule of a category lead to where that rule is complete. -/
def leads (s : State) (c : Category) : Bool :=
  c.rules.all fun r => (walk s r.body).any fun e => (row e).complete = some r

/-- Whether, after a phrase of the category, no rule without parts is complete, and none at all if
the phrase may be without tokens. -/
def enters (c : Category) (s : State) : Bool :=
  (row s).complete.all fun r => !c.isEmptiable && !r.body.isEmpty

/-- Whether a step leads elsewhere than to the first state, and to the last one only if it is the
step of a program in the first. -/
def spans (s : State) (x : GrammarSymbol) (s' : State) : Bool :=
  s' != initial && (s' != final || (s == initial && x == .phrase .program))

def stepChecked (s : State) (x : GrammarSymbol) (s' : State) : Bool :=
  (past s').isPrefixOf (x :: past s) && spans s x s' &&
    ofPhrase (fun c => leads s c && enters c s') x

def stateChecked (s : State) : Bool :=
  (Category.all.all fun c => c.rules.all (passes s)) && (row s).complete.all fun r =>
    r.body.reverse.isPrefixOf (past s) &&
      r.category.followTokens.all fun kind => ((row s).shifts.lookup kind).isNone

theorem checked_of_next? {s s' : State} {x : GrammarSymbol} (h : next? s x = some s') :
    past s' <+: x :: past s ∧ spans s x s' = true ∧
      ofPhrase (fun c => leads s c && enters c s') x = true := by
  have hall := of_all_edges (p := stepChecked) (by decide +kernel) h
  rwa [stepChecked, Bool.and_eq_true, Bool.and_eq_true, List.isPrefixOf_iff_prefix,
    and_assoc] at hall

theorem checked_of_goto {s s' : State} {c : Category} (h : next? s (.phrase c) = some s') :
    leads s c = true ∧ enters c s' = true :=
  (Bool.and_eq_true _ _).mp (checked_of_next? h).2.2

theorem checked_of_state (s : State) :
    (Category.all.all fun c => c.rules.all (passes s)) = true ∧
      ∀ r, (row s).complete = some r → r.body.reverse <+: past s ∧
        ∀ kind ∈ r.category.followTokens, (row s).shifts.lookup kind = none := by
  have hall := of_all_states (p := stateChecked) (by decide +kernel)
    (fun s hs => by simp [stateChecked, passes_of_row_eq_empty hs, hs, Row.empty]) s
  rw [stateChecked, Bool.and_eq_true] at hall
  refine ⟨hall.1, fun r hr => ?_⟩
  simpa [hr] using hall.2

/-! ## Facts on the table -/

/-- Where a phrase can be passed, the parts of each of its rules can be, up to where that rule is
complete. -/
theorem exists_walk_body {s s' : State} {r : Rule} (h : next? s (.phrase r.category) = some s') :
    ∃ e, walk s r.body = some e ∧ (row e).complete = some r := by
  have hr := List.all_eq_true.mp (checked_of_goto h).1 r r.mem_rules
  rw [Option.any_eq_true] at hr
  obtain ⟨e, he, hc⟩ := hr
  exact ⟨e, he, by simpa using hc⟩

/-- Where the parts of a rule lead to a state in which the rule is complete, a phrase of its
category can be passed. -/
theorem exists_goto_of_walk {s e : State} {r : Rule} (h : walk s r.body = some e)
    (hr : (row e).complete = some r) : ∃ s', next? s (.phrase r.category) = some s' := by
  have hcategory := List.all_eq_true.mp (checked_of_state s).1 r.category r.category.mem_all
  have hpasses := List.all_eq_true.mp hcategory r r.mem_rules
  rw [passes, h, Option.all_some, hr] at hpasses
  exact Option.isSome_iff_exists.mp (by simpa using hpasses)

/-- Where a rule is complete, no token that may follow its category can be shifted. -/
theorem shifts_eq_none_of_complete {s : State} {r : Rule} {kind : Terminal}
    (hr : (row s).complete = some r) (hkind : r.category.allows (.token kind) = true) :
    (row s).shifts.lookup kind = none :=
  ((checked_of_state s).2 r hr).2 kind (by simpa [Category.allows] using hkind)

/-- The past of a state has the parts of the rule that is complete there. -/
theorem body_of_complete {s : State} {r : Rule} (h : (row s).complete = some r) :
    r.body.reverse <+: past s :=
  ((checked_of_state s).2 r h).1

/-- A phrase that may be without tokens leads to no state where a rule is complete, and no phrase
leads to a state where a rule without parts is. -/
theorem complete_of_goto {s s' : State} {c : Category} {r : Rule}
    (h : next? s (.phrase c) = some s') (hr : (row s').complete = some r) :
    c.isEmptiable = false ∧ r.body ≠ [] := by
  have henters := (checked_of_goto h).2
  rw [enters, hr, Option.all_some] at henters
  simpa using henters

/-- Each step extends the past of the state it starts from. -/
theorem past_of_next? {s s' : State} {x : GrammarSymbol} (h : next? s x = some s') :
    past s' <+: x :: past s :=
  (checked_of_next? h).1

/-- Nothing leads back to the first state, and only a program in the first leads to the last. -/
theorem initial_of_next? {s s' : State} {x : GrammarSymbol} (h : next? s x = some s') :
    s' ≠ initial ∧ (s' = final → s = initial ∧ x = .phrase .program) := by
  have hspans := (checked_of_next? h).2.1
  simpa [spans, Decidable.or_iff_not_imp_left] using hspans

end Automaton

end Sema
