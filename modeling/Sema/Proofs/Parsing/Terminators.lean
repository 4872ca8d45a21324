import Sema.Proofs.Automaton.Lookaheads
import Sema.Proofs.Grammar.Joining
import Sema.Proofs.Parsing.Closing
import Sema.Proofs.Parsing.Spines

/-!
# Missing terminators

A semicolon that ends a declaration of a variable, an expression as a statement or a `return` is
taken out of a program. If the token after it can still be shifted, it is an expression after a bare
`return` or a parenthesis after a name (`shift_before_terminator`), and then the two statements make
one, so that what is left is a program again (`isPhrase_without_terminator`). Otherwise the error is
found at that token, the semicolon is inserted before it, and the parse goes on as it would have
(`recover_before_token`); at the end of the input it is one of the marks that close what is open
(`recover_at_end`).
-/

namespace Sema

def Rule.terminated : List Rule :=
  [.varDecl, .exprStmt, .returnValue, .returnBare]

namespace Automaton

/-! ## What the table is checked for -/

/-- Whether a step with a terminator could be one with a token that may follow the terminated phrase
only in a `return` without a value. -/
def terminates (s : State) (x : GrammarSymbol) (s' : State) : Bool :=
  !(x == .terminal .semicolon) || (row s').complete.all fun r => !Rule.terminated.contains r ||
    r.category.followTokens.all fun kind => (next? s (.terminal kind)).isNone ||
      r == .returnBare && Category.exprStart.contains kind

/-- Whether a step with a part of a loop's header leads to where no rule is complete, and where a
semicolon is no terminator. -/
def leadsToHeader (x : GrammarSymbol) (s' : State) : Bool :=
  !(x == .phrase .forInit || x == .phrase .forCond) || (row s').complete.isNone &&
    (next? s' (.terminal .semicolon)).all fun e =>
      (row e).complete.all fun r => !Rule.terminated.contains r

/-- Whether a step with a variable whose name a parenthesis may follow leads to where no parenthesis
can come once the variable is declared. -/
def declares (s : State) (x : GrammarSymbol) (s' : State) : Bool :=
  !(x == .phrase .varSpec) || (walk s (Rule.varSpec false false).body).all fun named =>
    (next? named (.terminal .lpar)).isNone ||
      (row s').complete.isNone && (next? s' (.terminal .semicolon)).all fun e =>
        (row e).complete == some .varDecl && ((next? e (.terminal .lpar)).isNone &&
          (next? s (.phrase .varDecl)).all fun s'' => (action? s'' (.token .lpar)).isNone)

theorem terminators_checked {s s' : State} {x : GrammarSymbol} (h : next? s x = some s') :
    terminates s x s' = true ∧ leadsToHeader x s' = true ∧ declares s x s' = true := by
  have hall := of_all_edges (p := fun s x s' =>
    terminates s x s' && (leadsToHeader x s' && declares s x s')) (by decide +kernel) h
  simpa only [Bool.and_eq_true] using hall

/-- Whether, in a state where the rule `r` is complete and a semicolon may follow it, what starts a
statement fits only as the parenthesis of a call or of a function's parameters, or in the header of
a loop. -/
def startsApart (s : State) (r : Rule) : Bool :=
  !r.category.allows (.token .semicolon) || Category.varDecl.followTokens.all fun kind =>
    (next? s (.terminal kind)).isNone ||
      kind == .lpar && (r == .name || r == .varSpec false false) ||
      (r == .forInitEmpty || r == .forCondEmpty)

/-- Whether something can be done in a state where the rule `r` of a terminated phrase is complete
only with what may follow the phrase. -/
def actsAfter (s : State) (r : Rule) : Bool :=
  !Rule.terminated.contains r || Lookahead.byLabel.all fun la =>
    (action? s la).isNone || r.category.allows la

theorem complete_checked {s : State} {r : Rule} (hr : (row s).complete = some r) :
    startsApart s r = true ∧ actsAfter s r = true := by
  have hall := of_all_states (p := fun s => (row s).complete.all fun r =>
    startsApart s r && actsAfter s r) (by decide +kernel) (fun s hs => by rw [hs]; rfl) s
  simpa only [hr, Option.all_some, Bool.and_eq_true] using hall

/-- A token that may follow a terminated phrase can be shifted before the terminator only in a
`return` without a value. -/
theorem shift_of_terminator {s e s' : State} {r : Rule} {kind : Terminal}
    (h : next? s (.terminal .semicolon) = some e) (hr : (row e).complete = some r)
    (hterminated : r ∈ Rule.terminated) (hkind : r.category.allows (.token kind) = true)
    (hshift : next? s (.terminal kind) = some s') :
    r = .returnBare ∧ kind ∈ Category.exprStart := by
  have hall := (terminators_checked h).1
  simp only [terminates, beq_self_eq_true, Bool.not_true, Bool.false_or, hr, Option.all_some,
    List.contains_iff_mem.mpr hterminated] at hall
  have hmem : kind ∈ r.category.followTokens := List.contains_iff_mem.mp hkind
  have hfound := List.all_eq_true.mp hall kind hmem
  simpa [hshift] using hfound

/-- Where a rule is complete that a semicolon may follow, what starts a statement can be shifted
only as the parenthesis of a call or of a function's parameters, or in the header of a loop. -/
theorem shift_of_complete {s s' : State} {r : Rule} {kind : Terminal}
    (hr : (row s).complete = some r) (hsemicolon : r.category.allows (.token .semicolon) = true)
    (hkind : kind ∈ Category.varDecl.followTokens) (hshift : next? s (.terminal kind) = some s') :
    kind = .lpar ∧ (r = .name ∨ r = .varSpec false false) ∨
      r = .forInitEmpty ∨ r = .forCondEmpty := by
  have hall := (complete_checked hr).1
  simp only [startsApart, hsemicolon, Bool.not_true, Bool.false_or] at hall
  have hfound := List.all_eq_true.mp hall kind hkind
  simpa [hshift] using hfound

/-- After an empty part of a loop's header no rule is complete, and the semicolon that comes then is
no terminator. -/
theorem not_terminated_of_header {s s' e : State} {c : Category} {r : Rule}
    (hc : c = .forInit ∨ c = .forCond) (h : next? s (.phrase c) = some s') :
    (row s').complete = none ∧ (next? s' (.terminal .semicolon) = some e →
      (row e).complete = some r → r ∉ Rule.terminated) := by
  have hall := (terminators_checked h).2.1
  have hheader : (.phrase c == GrammarSymbol.phrase .forInit ||
      .phrase c == GrammarSymbol.phrase .forCond) = true := by
    rcases hc with rfl | rfl <;> rfl
  rw [leadsToHeader, hheader, Bool.not_true, Bool.false_or, Bool.and_eq_true] at hall
  refine ⟨Option.isNone_iff_eq_none.mp hall.1, fun he hr hmem => ?_⟩
  have hnot := hall.2
  rw [he, Option.all_some, hr, Option.all_some, List.contains_iff_mem.mpr hmem] at hnot
  cases hnot

/-- A variable whose name a parenthesis may follow stands where no parenthesis can come once the
variable is declared. -/
theorem declared_of_lpar {b s s' s₁ : State} (h : walk b (Rule.varSpec false false).body = some s)
    (hlpar : next? s (.terminal .lpar) = some s₁) (hspec : next? b (.phrase .varSpec) = some s') :
    (row s').complete = none ∧ ∀ e, next? s' (.terminal .semicolon) = some e →
      (row e).complete = some .varDecl ∧ next? e (.terminal .lpar) = none ∧
      ∀ s'', next? b (.phrase .varDecl) = some s'' → action? s'' (.token .lpar) = none := by
  have hall := (terminators_checked hspec).2.2
  simpa [declares, h, hlpar, Option.all_eq_true] using hall

theorem allows_of_terminated {s : State} {r : Rule} {la : Lookahead} {a : Action}
    (hr : (row s).complete = some r) (hterminated : r ∈ Rule.terminated)
    (ha : action? s la = some a) : r.category.allows la = true := by
  have hall := (complete_checked hr).2
  simp only [actsAfter, List.contains_iff_mem.mpr hterminated, Bool.not_true, Bool.false_or] at hall
  have hla := List.all_eq_true.mp hall la (mem_byLabel la)
  simpa [ha] using hla

theorem mem_followTokens_of_terminated {r : Rule} {kind : Terminal} (hr : r ∈ Rule.terminated)
    (hkind : r.category.allows (.token kind) = true) :
    kind ∈ Category.varDecl.followTokens := by
  have hall : Rule.terminated.all fun r =>
    r.category.followTokens.all (Category.varDecl.followTokens.contains ·) := by decide
  have hmem : kind ∈ r.category.followTokens := List.contains_iff_mem.mp hkind
  exact List.contains_iff_mem.mp (List.all_eq_true.mp (List.all_eq_true.mp hall r hr) kind hmem)

/-! ## A token that is shifted where a terminator is missing -/

namespace Stack

theorem Reduces.eq_or_node {la : Lookahead} {σ σ' : Stack} (h : Reduces la σ σ') :
    σ' = σ ∨ ∃ s r ts below, σ' = ⟨s, .node r ts⟩ :: below := by
  induction h with
  | refl => exact .inl rfl
  | step _ reduce _ ih =>
    rcases ih with rfl | hnode
    · obtain ⟨s, -, rfl⟩ := reduce?_eq_some reduce
      exact .inr ⟨_, _, _, _, rfl⟩
    · exact .inr hnode

theorem Reduces.eq_of_name {la : Lookahead} {σ σ' : Stack} (hσ : Path σ) (h : Reduces la σ σ')
    (hname : (row (state σ')).complete = some .name) : σ' = σ := by
  rcases h.eq_or_node with heq | ⟨s, r, ts, below, rfl⟩
  · exact heq
  · have hpast := (body_of_complete hname).trans (past_prefix_symbols (h.path hσ).1)
    exact absurd (List.cons_prefix_cons.mp hpast).1 (by simp)

theorem not_terminated_of_reduces {σ σ' σ₁ : Stack} {e : State} {r r' : Rule}
    (hempty : r' = .forInitEmpty ∨ r' = .forCondEmpty) (hreduce : reduce? r' σ = some σ')
    (hreduces : Reduces (.token .semicolon) σ' σ₁)
    (hnext : next? (state σ₁) (.terminal .semicolon) = some e)
    (hr : (row e).complete = some r) : r ∉ Rule.terminated := by
  obtain ⟨s, hs, rfl⟩ := reduce?_eq_some hreduce
  have hcategory : r'.category = .forInit ∨ r'.category = .forCond := by
    rcases hempty with rfl | rfl
    · exact .inl rfl
    · exact .inr rfl
  obtain ⟨hnone, hnot⟩ := @not_terminated_of_header _ _ e _ r hcategory hs
  obtain rfl := hreduces.eq_of_complete_eq_none hnone
  exact hnot hnext hr

/-- After the declaration of a variable whose name a parenthesis might follow, no parenthesis can
come. -/
theorem not_feed_lpar {σ σ' σ₁ τ : Stack} {e s : State} {t semi : Token} (hσ : Path σ)
    (hspec : (row (state σ)).complete = some (.varSpec false false))
    (hlpar : next? (state σ) (.terminal .lpar) = some s)
    (hreduce : reduce? (.varSpec false false) σ = some σ')
    (hreduces : Reduces (.token .semicolon) σ' σ₁)
    (hnext : next? (state σ₁) (.terminal .semicolon) = some e)
    (hpath : Path (⟨e, .leaf semi⟩ :: σ₁)) (ht : t.kind = .lpar) :
    feed t (⟨e, .leaf semi⟩ :: σ₁) ≠ .ok τ := by
  intro hfeed
  have hwalk := walk_symbols_take hσ (Rule.varSpec false false).body.length
  rw [symbols_take_of_complete hσ hspec, List.reverse_reverse] at hwalk
  obtain ⟨s', hs', rfl⟩ := reduce?_eq_some hreduce
  obtain ⟨hnone, hdeclared⟩ := declared_of_lpar hwalk hlpar hs'
  obtain rfl := hreduces.eq_of_complete_eq_none hnone
  obtain ⟨hcomplete, hshift, hlater⟩ := hdeclared e hnext
  obtain ⟨σ₂, s₂, hreduces₂, hnext₂, -⟩ := (feed_eq_ok_iff hpath).mp hfeed
  rw [ht] at hreduces₂ hnext₂
  cases hreduces₂ with
  | refl =>
    rw [show next? e (.terminal .lpar) = some s₂ from hnext₂] at hshift
    cases hshift
  | step action reduce rest =>
    have hrule := (action?_eq_reduce action).1
    rw [show (row e).complete = some _ from hrule] at hcomplete
    cases hcomplete
    obtain ⟨s'', hs'', rfl⟩ := reduce?_eq_some reduce
    obtain ⟨a, ha⟩ := rest.exists_action (action?_eq_shift_iff.mpr hnext₂)
    exact Option.some_ne_none a (ha.symm.trans (hlater s'' hs''))

/-- Where a token comes after a terminator and can also be shifted without it, the token starts an
expression after a bare `return`, or it is a parenthesis after a name. -/
theorem shift_before_terminator {σ σ₁ τ τ' : Stack} {e : State} {r : Rule} {t semi : Token}
    (hσ : Path σ) (hreduces : Reduces (.token .semicolon) σ σ₁)
    (hnext : next? (state σ₁) (.terminal .semicolon) = some e) (hr : (row e).complete = some r)
    (hterminated : r ∈ Rule.terminated) (hpath : Path (⟨e, .leaf semi⟩ :: σ₁))
    (hafter : feed t (⟨e, .leaf semi⟩ :: σ₁) = .ok τ') (hbefore : feed t σ = .ok τ) :
    r = .returnBare ∧ t.kind ∈ Category.exprStart ∨
      t.kind = .lpar ∧ (row (state σ)).complete = some .name := by
  obtain ⟨σ₃, s₃, hreduces₃, hnext₃, -⟩ := (feed_eq_ok_iff hpath).mp hafter
  obtain ⟨a, ha⟩ := hreduces₃.exists_action (action?_eq_shift_iff.mpr hnext₃)
  have hallows := allows_of_terminated hr hterminated ha
  obtain ⟨σ₂, s₂, hreduces₂, hnext₂, -⟩ := (feed_eq_ok_iff hσ).mp hbefore
  have hpath₂ := (hreduces₂.path hσ).1
  have hchain : Reduces (.token .semicolon) σ₂ σ₁ := by
    rcases hreduces₂.comparable hreduces with hrest | hrest
    · exact hrest
    · have hnone := @complete_eq_none_of_mark _ _ .semicolon hnext
      rw [hrest.eq_of_complete_eq_none hnone]
      exact .refl
  cases hchain with
  | refl => exact .inl (shift_of_terminator hnext hr hterminated hallows hnext₂)
  | step action reduce rest =>
    obtain ⟨hrule, hsemicolon⟩ := action?_eq_reduce action
    have hmem := mem_followTokens_of_terminated hterminated hallows
    rcases shift_of_complete hrule hsemicolon hmem hnext₂ with ⟨hlpar, rfl | rfl⟩ | hheader
    · exact .inr ⟨hlpar, hreduces₂.eq_of_name hσ hrule ▸ hrule⟩
    · rw [hlpar] at hnext₂
      exact absurd hafter (not_feed_lpar hpath₂ hrule hnext₂ reduce rest hnext hpath hlpar)
    · exact absurd hterminated (not_terminated_of_reduces hheader reduce rest hnext hr)

end Stack

end Automaton

/-! ## Terminators in a tree -/

/-- The token between `u` and `v` ends a declaration of a variable, an expression that stands as a
statement, or a `return`. -/
def Tree.Terminates (root : Tree) (u : List Token) (semi : Token) (v : List Token) : Prop :=
  ∃ path u' r ts, r ∈ Rule.terminated ∧ root.Occurs path u' (.node r (ts ++ [.leaf semi])) v ∧
    u = u' ++ Tree.leavesAll ts

theorem body_of_terminated {r : Rule} (hr : r ∈ Rule.terminated) :
    ∃ xs, r.body = xs ++ [.terminal .semicolon] := by
  simp only [Rule.terminated, List.mem_cons, List.not_mem_nil, or_false] at hr
  rcases hr with rfl | rfl | rfl | rfl
  · exact ⟨[.phrase .varSpec], rfl⟩
  · exact ⟨[.phrase .expr], rfl⟩
  · exact ⟨[.terminal .returnKw, .phrase .expr], rfl⟩
  · exact ⟨[.terminal .returnKw], rfl⟩

theorem symbols_before_last {r : Rule} {ts : List Tree} {t : Tree} {xs : List GrammarSymbol}
    {x : GrammarSymbol} (h : (Tree.node r (ts ++ [t])).WellFormed) (hr : r.body = xs ++ [x]) :
    ts.map Tree.symbol = xs := by
  have hbody := h.1.trans hr
  rw [List.map_append] at hbody
  exact (List.append_inj' hbody rfl).1

theorem exists_last_of_varSpec {t : Tree} (ht : t.WellFormed)
    (hsymbol : t.symbol = .phrase .varSpec) :
    (∃ isConst us x, t = .node (.varSpec isConst false) (us ++ [.leaf x])) ∨
      ∃ r us e, t = .node r (us ++ [e]) ∧ e.symbol = .phrase .expr := by
  cases t with
  | leaf token => cases hsymbol
  | node r ts =>
    obtain ⟨isConst, hasValue, rfl⟩ : ∃ isConst hasValue, r = .varSpec isConst hasValue := by
      have hmem := r.mem_rules
      rw [show r.category = .varSpec from GrammarSymbol.phrase.inj hsymbol] at hmem
      simp only [Category.rules, List.mem_cons, List.not_mem_nil, or_false] at hmem
      rcases hmem with h | h | h | h <;> exact ⟨_, _, h⟩
    cases hasValue with
    | false =>
      obtain ⟨xs, hxs⟩ : ∃ xs, (Rule.varSpec isConst false).body = xs ++ [.terminal .name] := by
        cases isConst
        · exact ⟨[.phrase .typeName], rfl⟩
        · exact ⟨[.terminal .const, .phrase .typeName], rfl⟩
      obtain ⟨us, x, rfl, -, -⟩ := leaves_of_last ht hxs
      exact .inl ⟨isConst, us, x, rfl⟩
    | true =>
      obtain ⟨xs, hxs⟩ : ∃ xs, (Rule.varSpec isConst true).body = xs ++ [.phrase .expr] := by
        cases isConst
        · exact ⟨[.phrase .typeName, .terminal .name, .terminal .equal], rfl⟩
        · exact ⟨[.terminal .const, .phrase .typeName, .terminal .name, .terminal .equal], rfl⟩
      obtain ⟨us, e, rfl, he⟩ := exists_append_of_map_eq (ht.1.trans hxs)
      exact .inr ⟨_, us, e, rfl, he⟩

theorem exists_kw_of_returnBare {ts : List Tree} {semi : Token}
    (h : (Tree.node .returnBare (ts ++ [.leaf semi])).WellFormed) :
    ∃ kw, ts = [.leaf kw] ∧ kw.kind = .returnKw := by
  have hbefore := @symbols_before_last .returnBare ts _ [.terminal .returnKw] _ h rfl
  obtain ⟨first, rest, rfl, hfirst, hrest⟩ := List.map_eq_cons_iff.mp hbefore
  obtain rfl := List.map_eq_nil_iff.mp hrest
  obtain ⟨kw, rfl, hkw⟩ := Tree.eq_leaf_of_symbol hfirst
  exact ⟨kw, rfl, hkw⟩

/-- A terminated phrase is a `return` without a value, the declaration of a variable without one, or
it has an expression before its semicolon. -/
theorem exists_value {r : Rule} {ts : List Tree} {semi : Token} (hr : r ∈ Rule.terminated)
    (h : (Tree.node r (ts ++ [.leaf semi])).WellFormed) :
    (r = .returnBare ∧ ∃ kw, ts = [.leaf kw] ∧ kw.kind = .returnKw) ∨
    (r = .varDecl ∧ ∃ isConst us x, ts = [.node (.varSpec isConst false) (us ++ [.leaf x])]) ∨
    ∃ path u e, (Tree.node r (ts ++ [.leaf semi])).Occurs path u e [semi] ∧
      e.symbol = .phrase .expr := by
  simp only [Rule.terminated, List.mem_cons, List.not_mem_nil, or_false] at hr
  rcases hr with rfl | rfl | rfl | rfl
  · have hbefore := @symbols_before_last .varDecl ts _ [.phrase .varSpec] _ h rfl
    obtain ⟨spec, rest, rfl, hspec, hrest⟩ := List.map_eq_cons_iff.mp hbefore
    obtain rfl := List.map_eq_nil_iff.mp hrest
    rcases exists_last_of_varSpec h.2.1 hspec with ⟨isConst, us, x, rfl⟩ | ⟨r', us, e, rfl, he⟩
    · exact .inr (.inl ⟨rfl, isConst, us, x, rfl⟩)
    · have hpart : (Tree.node .varDecl
          ([] ++ .node r' (us ++ [e]) :: [.leaf semi])).Occurs _ _ _ _ := .part .root
      have hlast : (Tree.node r' (us ++ [e])).Occurs _ _ e _ := .part .root
      exact .inr (.inr ⟨_, _, e, hpart.trans hlast, he⟩)
  · have hbefore := @symbols_before_last .exprStmt ts _ [.phrase .expr] _ h rfl
    obtain ⟨e, rest, rfl, he, hrest⟩ := List.map_eq_cons_iff.mp hbefore
    obtain rfl := List.map_eq_nil_iff.mp hrest
    have hpart : (Tree.node .exprStmt ([] ++ e :: [.leaf semi])).Occurs _ _ e _ := .part .root
    exact .inr (.inr ⟨_, _, e, hpart, he⟩)
  · have hbefore :=
      @symbols_before_last .returnValue ts _ [.terminal .returnKw, .phrase .expr] _ h rfl
    obtain ⟨kw, rest, rfl, -, hrest⟩ := List.map_eq_cons_iff.mp hbefore
    obtain ⟨e, rest, rfl, he, hrest⟩ := List.map_eq_cons_iff.mp hrest
    obtain rfl := List.map_eq_nil_iff.mp hrest
    have hpart : (Tree.node .returnValue ([kw] ++ e :: [.leaf semi])).Occurs _ _ e _ := .part .root
    exact .inr (.inr ⟨_, _, e, hpart, he⟩)
  · exact .inl ⟨rfl, exists_kw_of_returnBare h⟩

namespace Parsing

open Automaton

variable {root : Tree} {u v : List Token} {semi t : Token}

theorem reads_terminator (hroot : root.WellFormed) (hprogram : root.symbol = .phrase .program)
    {path : List Rule} {r : Rule} {ts : List Tree} (hr : r ∈ Rule.terminated)
    (h : root.Occurs path u (.node r (ts ++ [.leaf semi])) v) :
    ∃ σ σ₁ e, Stack.feedAll [] (u ++ Tree.leavesAll ts) = some σ ∧
      Stack.Reduces (.token .semicolon) σ σ₁ ∧
      next? (Stack.state σ₁) (.terminal .semicolon) = some e ∧ (row e).complete = some r := by
  obtain ⟨xs, hxs⟩ := body_of_terminated hr
  obtain ⟨us, token, hts, -, hkind⟩ := leaves_of_last (h.wellFormed hroot) hxs
  obtain rfl : semi = token := by
    have hlast := (List.append_inj' hts rfl).2
    simpa using hlast
  obtain ⟨σ₁, e, -, hreads, hwalk, hcomplete⟩ :=
    Stack.reads_parts hroot hprogram h
  obtain ⟨σ, hfeed, hreduces⟩ := (Stack.reads_iff .nil).mp hreads
  obtain ⟨e', hnext, he'⟩ := Option.bind_eq_some_iff.mp hwalk
  cases he'
  rw [Tree.symbol_leaf, hkind] at hnext
  exact ⟨σ, σ₁, e, hfeed, by simpa [Tree.leavesAll, Tree.leaves, Stack.peek, hkind] using hreduces,
    hnext, hcomplete⟩

theorem complete_of_varSpec (hroot : root.WellFormed) (hprogram : root.symbol = .phrase .program)
    {path : List Rule} {r : Rule} {us : List Tree} {x : Token} {σ : Stack}
    (h : root.Occurs path u (.node r (us ++ [.leaf x])) v)
    (hσ : Stack.feedAll [] (u ++ Tree.leavesAll (us ++ [.leaf x])) = some σ) :
    (row (Stack.state σ)).complete = some r := by
  obtain ⟨σ₁, e, -, hreads, hwalk, hcomplete⟩ :=
    Stack.reads_parts hroot hprogram h
  obtain ⟨τ, hfeed, hreduces⟩ := (Stack.reads_iff .nil).mp hreads
  obtain ⟨e', hnext, he'⟩ := Option.bind_eq_some_iff.mp hwalk
  cases he'
  have hτ := (Stack.path_feedAll .nil hfeed).1
  have hx : Stack.feed x τ = .ok (⟨e, .leaf x⟩ :: σ₁) :=
    (Stack.feed_eq_ok_iff hτ).mpr ⟨σ₁, e, hreduces, hnext, rfl⟩
  rw [Tree.leavesAll_append, ← List.append_assoc, Stack.feedAll_append_eq_some] at hσ
  obtain ⟨mid, hmid, hlast⟩ := hσ
  rw [hfeed] at hmid
  cases hmid
  rw [show Tree.leavesAll [.leaf x] = [x] from rfl, Stack.feedAll_cons_of_feed hx] at hlast
  cases hlast
  exact hcomplete

theorem exists_name_of_complete {σ : Stack} (hσ : Stack.Path σ)
    (h : (row (Stack.state σ)).complete = some .name) :
    ∃ w x, σ.leaves = w ++ [x] ∧ x.kind = .name := by
  have hpast := (body_of_complete h).trans (Stack.past_prefix_symbols hσ)
  cases σ with
  | nil => simp [Stack.symbols, Rule.body] at hpast
  | cons frame below =>
    have hsymbol := (List.cons_prefix_cons.mp hpast).1
    obtain ⟨x, hx, hkind⟩ := Tree.eq_leaf_of_symbol hsymbol.symm
    refine ⟨Stack.leaves below, x, ?_, hkind⟩
    rw [Stack.leaves_cons, hx]
    rfl

theorem rule_above_terminated {r r' : Rule} (hr : r ∈ Rule.terminated)
    (h : .phrase r.category ∈ r'.body) :
    (∃ form : StmtForm, r' = .stmt form) ∨ r' = .declVar ∧ r = .varDecl := by
  have hall := Rule.of_all_rules (p := fun r' => Rule.terminated.all fun r =>
    !r'.body.contains (.phrase r.category) || r'.category == .stmt ||
      r' == .declVar && r == .varDecl) (by decide +kernel) r'
  have hfound := List.all_eq_true.mp hall r hr
  simp only [List.contains_iff_mem.mpr h, Bool.not_true, Bool.false_or, Bool.or_eq_true,
    beq_iff_eq, Bool.and_eq_true] at hfound
  rcases hfound with hstmt | hdecl
  · exact .inl (exists_form_of_category hstmt)
  · exact .inr hdecl

theorem wellFormed_with_semicolon {r : Rule} {ts : List Tree} {semi' : Token}
    (hr : r ∈ Rule.terminated) (h : (Tree.node r (ts ++ [.leaf semi])).WellFormed)
    (hsemi' : semi'.kind = .semicolon) : (Tree.node r (ts ++ [.leaf semi'])).WellFormed := by
  obtain ⟨xs, hxs⟩ := body_of_terminated hr
  have hbefore := symbols_before_last h hxs
  obtain ⟨hts, -, -⟩ := Tree.allWellFormed_append_cons h.2
  refine ⟨?_, allWellFormed_append hts ⟨trivial, trivial⟩⟩
  rw [List.map_append, hbefore, hxs]
  simp [hsemi']

theorem isPhrase_call (hroot : root.WellFormed) (hprogram : root.symbol = .phrase .program)
    {path : List Rule} {r : Rule} {ts : List Tree} {σ : Stack} {semi' : Token} {z : List Token}
    (hr : r ∈ Rule.terminated) (h : root.Occurs path u (.node r (ts ++ [.leaf semi])) v)
    (hσ : Stack.feedAll [] (u ++ Tree.leavesAll ts) = some σ)
    (hname : (row (Stack.state σ)).complete = some .name) (ht : t.kind = .lpar)
    (hz : IsPhrase .expr (t :: z)) (hsemi' : semi'.kind = .semicolon) :
    IsPhrase r.category (Tree.leavesAll ts ++ (t :: z) ++ [semi']) := by
  obtain ⟨hpath, hleaves⟩ := Stack.path_feedAll .nil hσ
  obtain ⟨w, x, hx, hkind⟩ := exists_name_of_complete hpath hname
  rw [hx, Stack.leaves_nil, List.nil_append] at hleaves
  have hnode := wellFormed_with_semicolon hr (h.wellFormed hroot) hsemi'
  rcases exists_value hr hnode with ⟨-, kw, rfl, hkw⟩ | ⟨rfl, isConst, us, x', rfl⟩ |
    ⟨path', y, e, he, hsymbol⟩
  · have hlast := (List.append_inj' hleaves rfl).2
    rw [(List.cons.inj hlast).1, hkw] at hkind
    cases hkind
  · have hspec : root.Occurs _ _ (.node (.varSpec isConst false) (us ++ [.leaf x'])) _ :=
      .part (show root.Occurs _ _ (.node .varDecl ([] ++ _ :: [.leaf semi])) _ from h)
    have hread : Stack.feedAll [] (u ++ Tree.leavesAll [] ++ Tree.leavesAll (us ++ [.leaf x'])) =
        some σ := by simpa [Tree.leavesAll, Tree.leaves] using hσ
    have hcomplete := complete_of_varSpec hroot hprogram hspec hread
    rw [hname] at hcomplete
    cases hcomplete
  · have hwhole : Tree.leavesAll ts = y ++ e.leaves := by
      have hboth := he.leaves
      rw [Tree.leaves, Tree.leavesAll_append, ← List.append_assoc] at hboth
      exact (List.append_inj' hboth rfl).1
    rw [hwhole, ← List.append_assoc] at hleaves
    obtain ⟨w', hw', -⟩ := exists_append_last hleaves.symm
      (Tree.leaves_ne_nil (he.wellFormed hnode) hsymbol rfl)
    have hexpr : IsPhrase .expr (w' ++ [x]) := ⟨e, he.wellFormed hnode, hsymbol, hw'⟩
    obtain ⟨call, hcall⟩ := hexpr.call hkind hz ht
    obtain ⟨joined, hjoined⟩ := he.replace hnode hcall.wellFormed (hcall.symbol.trans hsymbol.symm)
    refine ⟨joined, ?_⟩
    rw [hwhole, hw']
    simpa [hcall.leaves] using hjoined

/-- A terminated phrase that stands as a statement and the statement after it make one statement
without the terminator, if that starts with an expression after a bare `return`, or with a
parenthesis after a name. -/
theorem isPhrase_joined (hroot : root.WellFormed) (hprogram : root.symbol = .phrase .program)
    {path : List Rule} {r : Rule} {ts : List Tree} {form : StmtForm} {σ : Stack}
    (hr : r ∈ Rule.terminated)
    (h : root.Occurs (.stmt form :: path) u (.node r (ts ++ [.leaf semi])) (t :: v))
    (hσ : Stack.feedAll [] (u ++ Tree.leavesAll ts) = some σ)
    (ht : r = .returnBare ∧ t.kind ∈ Category.exprStart ∨
      t.kind = .lpar ∧ (row (Stack.state σ)).complete = some .name) :
    IsPhrase .program (u ++ Tree.leavesAll ts ++ t :: v) := by
  have hstart : t.kind ∈ Category.exprStart := by
    rcases ht with ⟨-, ht⟩ | ⟨ht, -⟩
    · exact ht
    · rw [ht]
      decide
  have hrbrace : t.kind ≠ .rbrace := by
    intro hrbrace
    rw [hrbrace] at hstart
    revert hstart
    decide
  have hcategory : r.category = form.category := by
    have hmem := h.symbol_mem_body hroot
    simpa [Rule.body] using hmem
  obtain ⟨s, v', hs, hsymbol, hv, hjoin⟩ :=
    (h.only hroot rfl).join_next hroot hprogram rfl hrbrace
  obtain ⟨first, w, hw⟩ := List.exists_cons_of_ne_nil (Tree.leaves_ne_nil hs hsymbol rfl)
  rw [hw, List.cons_append] at hv
  obtain ⟨rfl, rfl⟩ := List.cons.inj hv
  obtain ⟨z, semi', hz, hsemi', hexpr⟩ := exprStmt_of_first hs hsymbol hw hstart
  have hjoined : IsPhrase form.category (Tree.leavesAll ts ++ z ++ [semi']) := by
    rw [← hcategory]
    rcases ht with ⟨rfl, -⟩ | ⟨hlpar, hname⟩
    · obtain ⟨kw, rfl, hkw⟩ := exists_kw_of_returnBare (h.wellFormed hroot)
      exact hexpr.returnValue hkw hsemi'
    · cases z with
      | nil =>
        rw [(List.cons.inj hz).1, hsemi'] at hlpar
        cases hlpar
      | cons first' z' =>
        obtain rfl := (List.cons.inj hz).1
        exact isPhrase_call hroot hprogram hr h hσ hname hlpar hexpr hsemi'
  have hall := hjoin _ hjoined.stmt
  rw [← List.cons_append, hz]
  simpa using hall

/-- If a token after a terminator can also be shifted without it, the tokens without the terminator
are a program. -/
theorem isPhrase_without_terminator (hroot : root.WellFormed)
    (hprogram : root.symbol = .phrase .program) {path : List Rule} {r : Rule} {ts : List Tree}
    {σ σ₁ τ τ' : Stack} {e : State} (hr : r ∈ Rule.terminated)
    (h : root.Occurs path u (.node r (ts ++ [.leaf semi])) (t :: v))
    (hσ : Stack.feedAll [] (u ++ Tree.leavesAll ts) = some σ)
    (hreduces : Stack.Reduces (.token .semicolon) σ σ₁)
    (hnext : next? (Stack.state σ₁) (.terminal .semicolon) = some e)
    (hcomplete : (row e).complete = some r) (hpath : Stack.Path (⟨e, .leaf semi⟩ :: σ₁))
    (hafter : Stack.feed t (⟨e, .leaf semi⟩ :: σ₁) = .ok τ') (hbefore : Stack.feed t σ = .ok τ) :
    IsPhrase .program (u ++ Tree.leavesAll ts ++ t :: v) := by
  have hearly := Stack.shift_before_terminator (Stack.path_feedAll .nil hσ).1 hreduces hnext
    hcomplete hr hpath hafter hbefore
  obtain ⟨r', path, rfl⟩ := h.exists_cons hprogram (by
    simp only [Rule.terminated, List.mem_cons, List.not_mem_nil, or_false] at hr
    rcases hr with rfl | rfl | rfl | rfl <;> simp [Rule.category])
  rcases rule_above_terminated hr (h.symbol_mem_body hroot) with ⟨form, rfl⟩ | ⟨rfl, rfl⟩
  · exact isPhrase_joined hroot hprogram hr h hσ hearly
  · obtain ⟨-, -, -, -, -, hallows⟩ := Stack.reads_occurs hroot hprogram (h.only hroot rfl)
    have hstart : Category.decl.allows (.token t.kind) = true := hallows .decl rfl
    rcases hearly with ⟨hreturn, -⟩ | ⟨hlpar, -⟩
    · cases hreturn
    · rw [hlpar] at hstart
      cases hstart

/-! ## The repair -/

/-- A mark that fits on the stack, with the token fitting after it, is inserted before a token that
does not fit. -/
theorem take_of_semicolon {σ settled fed marked : Stack} (hσ : Stack.Path σ)
    (herror : Stack.feed t σ = .error settled)
    (hmark : Stack.feed (Closer.semicolon.token t.span) σ = .ok marked)
    (hfed : Stack.feed t marked = .ok fed) :
    take t σ = ([.inserted .semicolon t], fed) := by
  have hsettle : settled = Stack.settle (.token t.kind) σ :=
    (Stack.path_of_feed_error hσ herror).2.2
  have hreduces : Stack.Reduces (.token t.kind) σ settled :=
    hsettle ▸ Stack.reduces_settle _ σ
  have hmark' := Stack.feed_mark_of_reduces hσ hreduces hmark
  have hinsert : insert? t settled .semicolon = some fed := by
    simp only [insert?, hmark', hfed, Except.toOption]
  have hinsertion : insertion? t settled = some (.semicolon, fed) := by
    simp only [insertion?, insertable, List.findSome?_cons, hinsert, Option.map_some]
  rw [take_of_feed_error herror]
  simp only [repair, hinsertion]

/-- What a recovering parse does where a terminator is missing before a token. -/
theorem recover_before_token {before after : List Piece} {place : Span} {tree : Tree}
    {w : List Token}
    (hstrict : strict (before ++ .token (Closer.semicolon.token place) :: after) = .ok tree)
    (hends : tree.Terminates (tokensOf before) (Closer.semicolon.token place) (tokensOf after))
    (hnot : ¬ IsPhrase .program (tokensOf before ++ tokensOf after))
    (hafter : tokensOf after = t :: w) :
    ∃ tree', recover (before ++ after) = ⟨[.inserted .semicolon t], some tree'⟩ ∧
      tree'.bare = tree.bare := by
  obtain ⟨hstray, htree⟩ := strict_eq_ok_iff.mp hstrict
  obtain ⟨hbefore, hrest⟩ := noStray_append.mp hstray
  obtain ⟨path, u, r, ts, hr, hoccurs, hu⟩ := hends
  obtain ⟨σ, σ₁, e, hσ, hreduces, hnext, hcomplete⟩ :=
    reads_terminator htree.wellFormed htree.symbol hr hoccurs
  rw [← hu] at hσ
  have hpath := (Stack.path_feedAll .nil hσ).1
  have hmark : ∀ place' : Span, Stack.feed (Closer.semicolon.token place') σ =
      .ok (⟨e, .leaf (Closer.semicolon.token place')⟩ :: σ₁) := fun place' =>
    (Stack.feed_eq_ok_iff hpath).mpr ⟨σ₁, e, hreduces, hnext, rfl⟩
  obtain ⟨-, τ, hτ, hfinish⟩ := (@strictFrom_eq_ok_iff ⟨.start, .start⟩ [] _ tree).mp hstrict
  rw [tokensOf_append, tokensOf_token, hafter, Stack.feedAll_append_eq_some] at hτ
  obtain ⟨mid, hmid, hlater⟩ := hτ
  rw [hσ] at hmid
  cases hmid
  rw [Stack.feedAll_cons_of_feed (hmark place), Stack.feedAll_cons_eq_some] at hlater
  obtain ⟨next, hfeed, hlater⟩ := hlater
  obtain ⟨settled, herror⟩ : ∃ settled, Stack.feed t σ = .error settled := by
    cases hearly : Stack.feed t σ with
    | error settled => exact ⟨settled, rfl⟩
    | ok τ' =>
      rw [hafter] at hoccurs
      rw [hu] at hσ
      have hphrase := isPhrase_without_terminator htree.wellFormed htree.symbol hr hoccurs hσ
        hreduces hnext hcomplete (Stack.path_of_feed_ok hpath (hmark place)).1 hfeed hearly
      rw [hu, hafter] at hnot
      exact absurd hphrase hnot
  have hmarked : Stack.bare (⟨e, .leaf (Closer.semicolon.token t.span)⟩ :: σ₁) =
      Stack.bare (⟨e, .leaf (Closer.semicolon.token place)⟩ :: σ₁) := by
    simp [Frame.bare, Tree.bare, Closer.bare_token]
  obtain ⟨fed, hfed, hfedBare⟩ := Stack.exists_feed_of_bare_eq rfl hmarked hfeed
  have htake := take_of_semicolon hpath herror (hmark t.span) hfed
  obtain ⟨qs, rest, rfl, hqs, hw⟩ := exists_first_token hafter
  obtain ⟨hqsStray, hrestStray⟩ := noStray_append.mp ((noStray_token _ _).mp hrest)
  have hclean : recoverFrom t.span next rest = ⟨[], some tree⟩ :=
    recoverFrom_of_strictFrom_ok (strictFrom_eq_ok_iff.mpr
      ⟨(noStray_token _ _).mp hrestStray, τ, hw ▸ hlater, hfinish⟩)
  obtain ⟨tree', hrecover, hbare⟩ := @exists_recoverFrom_of_bare_eq t.span t.span next fed rest rest
    tree hfedBare rfl hclean
  refine ⟨tree', ?_, hbare⟩
  have hfits : Stack.feedAll [] (tokensOf (before ++ qs)) = some σ := by
    rw [tokensOf_append, hqs, List.append_nil]
    exact hσ
  have hfirst := @recoverFrom_append ⟨.start, .start⟩ [] σ (before ++ qs)
    (noStray_append.mpr ⟨hbefore, hqsStray⟩) hfits (.token t :: rest)
  rw [recover, ← List.append_assoc, hfirst, recoverFrom_token, htake, hrecover]
  rfl

/-- What a recovering parse does where a terminator is missing at the end of the input. -/
theorem recover_at_end {before after : List Piece} {place : Span} {tree : Tree}
    (hstrict : strict (before ++ .token (Closer.semicolon.token place) :: after) = .ok tree)
    (hnot : ¬ IsPhrase .program (tokensOf before ++ tokensOf after))
    (hafter : tokensOf after = []) :
    ∃ last tree', (tokensOf before).getLast? = some last ∧
      recover (before ++ after) = ⟨[.closed [.semicolon] last.start], some tree'⟩ ∧
      tree'.bare = tree.bare := by
  obtain ⟨hstray, htree⟩ := strict_eq_ok_iff.mp hstrict
  obtain ⟨hbefore, hrest⟩ := noStray_append.mp hstray
  have htokens : tokensOf (before ++ after) = tokensOf before := by
    rw [tokensOf_append, hafter, List.append_nil]
  obtain ⟨pos, expected, herror⟩ : ∃ pos expected,
      strict (before ++ after) = .error (.unexpectedEnd pos expected) := by
    obtain ⟨-, σ, hσ⟩ := @exists_feedAll_of_strictFrom ⟨.start, .start⟩ [] before _ tree hstrict
    have hstop := @strictFrom_append ⟨.start, .start⟩ [] σ (before ++ after)
      (noStray_append.mpr ⟨hbefore, (noStray_token _ _).mp hrest⟩) (htokens ▸ hσ) []
    rw [List.append_nil, strictFrom] at hstop
    cases hfinish : σ.finish with
    | error settled => exact ⟨_, _, by rw [hfinish] at hstop; exact hstop⟩
    | ok tree' =>
      have hphrase : IsPhrase .program (tokensOf before) :=
        ⟨tree', derives_program_iff.mpr ⟨σ, hσ, hfinish⟩⟩
      rw [hafter, List.append_nil] at hnot
      exact absurd hphrase hnot
  obtain ⟨last, hlast, rfl, hclosed, -⟩ := recover_of_unexpectedEnd herror
  rw [tokensOf_append, tokensOf_token, hafter] at htree
  obtain ⟨tree', hbare, htree'⟩ :=
    @exists_derives_elsewhere (tokensOf before) [.semicolon] place tree htree last.span
  rw [htokens] at hlast hclosed
  exact ⟨last, tree', hlast, hclosed [.semicolon] tree' (by decide) htree', hbare⟩

end Parsing

/-- What is reported on a terminator that is missing between pieces: it is missing at the next
token, or at the end of the input, where the place is that of the last token. -/
def missingTerminator (before after : List Piece) : Diagnostic :=
  match (tokensOf after).head? with
  | some t => Repair.syntaxError t.start s!"missing ';' at '{t.text}'"
  | none => Repair.syntaxError (Parsing.lastSpan .nowhere before).start "missing ';' at <EOF>"

/-- Where a semicolon that ends a declaration of a variable, an expression as a statement or a
`return` is taken out of a program, and what is left is no program, a recovering parse gives the
program, up to places and the texts of initializers, and reports the semicolon as missing, and
nothing else. -/
theorem ofPieces_without_terminator {source source' : List Char} {before after : List Piece}
    {place : Span} {p : Program} {tree : Tree}
    (hp : Program.ofPieces source (before ++ .token (Closer.semicolon.token place) :: after) = .ok p)
    (htree : tree.Derives (.phrase .program)
      (tokensOf before ++ Closer.semicolon.token place :: tokensOf after))
    (hends : tree.Terminates (tokensOf before) (Closer.semicolon.token place) (tokensOf after))
    (hnot : ¬ IsPhrase .program (tokensOf before ++ tokensOf after)) :
    ∃ q, Parsed.ofPieces source' (before ++ after) =
        .ok ⟨some q, [missingTerminator before after]⟩ ∧ q.bare = p.bare := by
  obtain ⟨root, hstrict, hread⟩ := ofPieces_eq_ok.mp hp
  obtain rfl : tree = root := by
    have hroot := (Parsing.strict_eq_ok_iff.mp hstrict).2
    rw [tokensOf_append, tokensOf_token] at hroot
    exact Parsing.eq_of_derives_program htree hroot
  obtain ⟨repairs, tree', hrecover, hbare, hreport⟩ : ∃ repairs tree',
      Parsing.recover (before ++ after) = ⟨repairs, some tree'⟩ ∧ tree'.bare = tree.bare ∧
        Repair.report repairs = [missingTerminator before after] := by
    cases hafter : tokensOf after with
    | cons t w =>
      obtain ⟨tree', hrecover, hbare⟩ := Parsing.recover_before_token hstrict hends hnot hafter
      refine ⟨_, tree', hrecover, hbare, ?_⟩
      simp only [missingTerminator, hafter, List.head?_cons]
      rfl
    | nil =>
      obtain ⟨last, tree', hlast, hrecover, hbare⟩ := Parsing.recover_at_end hstrict hnot hafter
      refine ⟨_, tree', hrecover, hbare, ?_⟩
      simp only [missingTerminator, hafter, List.head?_nil, Parsing.lastSpan, hlast]
      rfl
  have htree' : (Parsing.recover (before ++ after)).tree = some tree' := by rw [hrecover]
  have hderives := (Parsing.derives_recover htree').1
  rcases @sameOutcome_of_bare_eq source' source _ _ _ _ _ _ hrecover hderives hstrict hbare with
    ⟨q, p', hq, hp', hsame⟩ | ⟨e, -, he⟩
  · rw [hp] at hp'
    cases hp'
    exact ⟨q, hreport ▸ hq, hsame⟩
  · rw [hp] at he
    cases he

def someSemicolon : Token :=
  Closer.semicolon.token .nowhere

/-- The tokens of the declaration of a variable, without its semicolon. -/
def variableTokens (name : String) : List Token :=
  [⟨.int, "int", .start, .start⟩, ⟨.name, name, .start, .start⟩]

def variableTree (name : String) : Tree :=
  .node .declVar [.node .varDecl [.node (.varSpec false false)
    [.node (.typeName .int) [.leaf ⟨.int, "int", .start, .start⟩],
      .leaf ⟨.name, name, .start, .start⟩], .leaf someSemicolon]]

def variablesTree : Tree :=
  .node .programDecls [.node .declsMore [.node .declsFirst [variableTree "x"], variableTree "y"]]

theorem variables_without_terminator : ∃ p q,
    Program.ofPieces [] ((variableTokens "x").map .token ++
      .token someSemicolon :: (variableTokens "y" ++ [someSemicolon]).map .token) = .ok p ∧
    Parsed.ofPieces [] ((variableTokens "x").map .token ++
        (variableTokens "y" ++ [someSemicolon]).map .token) =
      .ok ⟨some q, [Repair.syntaxError .start "missing ';' at 'int'"]⟩ ∧ q.bare = p.bare := by
  have hok : (Program.ofPieces [] ((variableTokens "x").map .token ++
      .token someSemicolon :: (variableTokens "y" ++ [someSemicolon]).map .token)).isOk = true := by
    decide +kernel
  have herror : (Parsing.strict ((variableTokens "x" ++
      (variableTokens "y" ++ [someSemicolon])).map .token)).isOk = false := by decide +kernel
  have htree : variablesTree.Derives (.phrase .program)
      (variableTokens "x" ++ someSemicolon :: (variableTokens "y" ++ [someSemicolon])) := by
    refine ⟨?_, rfl, rfl⟩
    simp [variablesTree, variableTree, Tree.WellFormed, Tree.AllWellFormed, Rule.body,
      Rule.category, BasicType.terminal, someSemicolon, Closer.token, Closer.terminal]
  have hends : variablesTree.Terminates (variableTokens "x") someSemicolon
      (variableTokens "y" ++ [someSemicolon]) := by
    have hdecls : variablesTree.Occurs [] [] (.node .programDecls ([] ++ _ :: [])) [] := .root
    have hmore : variablesTree.Occurs _ _ (.node .declsMore ([] ++ _ :: _)) _ := hdecls.part
    have hfirst : variablesTree.Occurs _ _ (.node .declsFirst ([] ++ _ :: _)) _ := hmore.part
    have hdecl : variablesTree.Occurs _ _ (.node .declVar ([] ++ _ :: _)) _ := hfirst.part
    exact ⟨_, _, .varDecl, [_], by decide, hdecl.part, rfl⟩
  have hnot : ¬ IsPhrase .program
      (variableTokens "x" ++ (variableTokens "y" ++ [someSemicolon])) := by
    rintro ⟨tree, htree⟩
    rw [Parsing.strict_map_token.mpr htree] at herror
    cases herror
  cases hp : Program.ofPieces [] ((variableTokens "x").map .token ++
      .token someSemicolon :: (variableTokens "y" ++ [someSemicolon]).map .token) with
  | error e =>
    rw [hp] at hok
    cases hok
  | ok p =>
    rw [← tokensOf_map_token (variableTokens "x"),
      ← tokensOf_map_token (variableTokens "y" ++ [someSemicolon])] at htree hends hnot
    obtain ⟨q, hq, hbare⟩ := @ofPieces_without_terminator [] [] _ _ .nowhere p variablesTree hp
      htree hends hnot
    exact ⟨p, q, rfl, hq, hbare⟩

end Sema
