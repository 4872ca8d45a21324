import Sema.Proofs.Grammar.Occurrences
import Sema.Proofs.Syntax.Total

/-!
# Joining expressions

An expression that ends with a name, with an expression in parentheses right behind it, is an
expression again: a call, with whatever comes after the parentheses (`IsPhrase.call`). The last
operand of an expression is one of every level of precedence (`exists_occurs_at_end`), so an
operator with its right operand may be put behind any expression (`IsPhrase.operator`).
-/

namespace Sema

def IsPhrase (c : Category) (w : List Token) : Prop :=
  ∃ t : Tree, t.Derives (.phrase c) w

/-! ## The end of an expression -/

/-- How tight the expressions of a category are: 9 for atoms, 10 for what is no expression. -/
def Category.tightness : Category → Nat
  | expr => 0
  | assign => 1
  | orExpr => 2
  | andExpr => 3
  | eqExpr => 4
  | relExpr => 5
  | addExpr => 6
  | mulExpr => 7
  | unary => 8
  | atom => 9
  | _ => 10

theorem Category.eq_of_tightness_eq {c d : Category} (h : c.tightness = d.tightness)
    (hd : d.tightness < 10) : c = d := by
  have hall : Category.all.all fun c => Category.all.all fun d =>
    !(c.tightness == d.tightness && decide (d.tightness < 10)) || c == d := by decide +kernel
  have hc := List.all_eq_true.mp (List.all_eq_true.mp hall c c.mem_all) d d.mem_all
  simpa [h, hd] using hc

theorem exists_last_of_body {r : Rule} (hr : r.category.tightness < 9) :
    ∃ xs c, r.body = xs ++ [.phrase c] ∧ c.tightness ≤ r.category.tightness + 1 := by
  have hall := Rule.of_all_rules (p := fun r => !decide (r.category.tightness < 9) ||
    r.body.getLast?.any (GrammarSymbol.test (fun _ => false) fun c =>
      decide (c.tightness ≤ r.category.tightness + 1))) (by decide +kernel) r
  simp only [hr, decide_true, Bool.not_true, Bool.false_or, Option.any_eq_true] at hall
  obtain ⟨x, hlast, hx⟩ := hall
  obtain ⟨xs, hxs⟩ := List.getLast?_eq_some_iff.mp hlast
  cases x with
  | terminal kind => cases hx
  | phrase c => exact ⟨xs, c, hxs, of_decide_eq_true hx⟩

theorem exists_append_of_map_eq {ts : List Tree} {xs : List GrammarSymbol} {x : GrammarSymbol}
    (h : ts.map Tree.symbol = xs ++ [x]) : ∃ us t, ts = us ++ [t] ∧ t.symbol = x := by
  obtain ⟨us, last, rfl, -, hlast⟩ := List.map_eq_append_iff.mp h
  obtain ⟨t, rest, rfl, ht, hrest⟩ := List.map_eq_cons_iff.mp hlast
  obtain rfl := List.map_eq_nil_iff.mp hrest
  exact ⟨us, t, rfl, ht⟩

/-- At the end of an expression stands one of every tighter category. -/
theorem exists_occurs_at_end {c d : Category} (hd : d.tightness < 10) (t : Tree)
    (ht : t.WellFormed) (hsymbol : t.symbol = .phrase c) (hle : c.tightness ≤ d.tightness) :
    ∃ path u a, t.Occurs path u a [] ∧ a.symbol = .phrase d := by
  induction t using Tree.ind generalizing c with
  | leaf token => cases hsymbol
  | node r ts ih =>
    obtain rfl : r.category = c := GrammarSymbol.phrase.inj hsymbol
    rcases Nat.eq_or_lt_of_le hle with heq | hlt
    · exact ⟨[], [], _, .root, Category.eq_of_tightness_eq heq hd ▸ hsymbol⟩
    · obtain ⟨hbody, hts⟩ := ht
      obtain ⟨xs, c, hxs, hle'⟩ := @exists_last_of_body r (by omega)
      obtain ⟨us, last, rfl, hlast⟩ := exists_append_of_map_eq (hbody.trans hxs)
      obtain ⟨-, hwf, -⟩ := Tree.allWellFormed_append_cons hts
      obtain ⟨path, u, a, ha, hsymbol'⟩ := ih last (by simp) hwf hlast (by omega)
      have hpart : (Tree.node r (us ++ [last])).Occurs _ _ last _ := .part .root
      exact ⟨_, _, a, hpart.trans ha, hsymbol'⟩

theorem Tree.leaves_ne_nil {t : Tree} {c : Category} (ht : t.WellFormed)
    (hsymbol : t.symbol = .phrase c) (hc : c.isEmptiable = false) : t.leaves ≠ [] := by
  intro hnil
  have hempty := (Tree.leaves_start ht).1 hnil
  rw [hsymbol] at hempty
  exact Bool.false_ne_true (hc.symm.trans hempty)

/-! ## Operators behind an expression -/

/-- An operator with its right operand may be put behind any expression. -/
theorem IsPhrase.operator {o : BinaryOp} {s : Token} {w v : List Token} (h : IsPhrase .expr w)
    (hs : s.kind = o.terminal) (hv : IsPhrase o.level.operand v) :
    IsPhrase .expr (w ++ s :: v) := by
  obtain ⟨t, ⟨ht, hsymbol, rfl⟩⟩ := h
  obtain ⟨right, hright⟩ := hv
  have hlevel : o.level.category.tightness < 10 := by cases o <;> decide
  obtain ⟨path, u, left, hleft, hleftSymbol⟩ :=
    exists_occurs_at_end hlevel t ht hsymbol (Nat.zero_le _)
  have hnode : (Tree.node (.binary o) [left, .leaf s, right]).WellFormed := by
    refine ⟨?_, hleft.wellFormed ht, trivial, hright.wellFormed, trivial⟩
    simp [hleftSymbol, hright.symbol, hs, Rule.body]
  obtain ⟨t', ht'⟩ := hleft.replace ht hnode hleftSymbol.symm
  refine ⟨t', ?_⟩
  rw [hsymbol] at ht'
  rw [hleft.leaves]
  simpa [Tree.leaves, Tree.leavesAll, hright.leaves] using ht'

/-! ## Calls -/

theorem kind_of_body {r : Rule} {kind : Terminal} {xs : List GrammarSymbol} {token : Token}
    {ts : List Tree} (h : (Tree.node r (.leaf token :: ts)).WellFormed)
    (hr : r.body = .terminal kind :: xs) : token.kind = kind := by
  have hbody := h.1
  rw [hr, List.map_cons] at hbody
  exact GrammarSymbol.terminal.inj (List.cons.inj hbody).1

/-- What an expression that starts with a parenthesis consists of: an expression in parentheses, and
something that may be put behind any expression. -/
theorem SpellsExpr.of_lpar {lpar : Token} (hlpar : lpar.kind = .lpar) : ∀ {t : Tree} {e : Expr}
    {z : List Token}, SpellsExpr t e → t.WellFormed → t.leaves = lpar :: z →
    ∃ w rpar tail, z = w ++ rpar :: tail ∧ rpar.kind = .rpar ∧ IsPhrase .expr w ∧
      ∀ y, IsPhrase .expr y → IsPhrase .expr (y ++ tail)
  | _, _, _, .expr part, ht, hz | _, _, _, .assignNone part, ht, hz
  | _, _, _, .operand part, ht, hz | _, _, _, .unaryAtom part, ht, hz =>
    part.of_lpar hlpar ht.2.1 (by simpa [Tree.leaves, Tree.leavesAll] using hz)
  | .node (.binary op) [l, .leaf sign, r], _, z, .binary left right, ht, hz => by
    obtain ⟨hbody, hl, -, hr, -⟩ := ht
    obtain ⟨hlsymbol, hrest⟩ := List.cons.inj hbody
    obtain ⟨hsign, hrest⟩ := List.cons.inj hrest
    have hrsymbol := List.head_eq_of_cons_eq hrest
    have hne := Tree.leaves_ne_nil hl hlsymbol (by cases op <;> rfl)
    obtain ⟨first, rest, hrest⟩ := List.exists_cons_of_ne_nil hne
    simp only [Tree.leaves, Tree.leavesAll, hrest, List.cons_append, List.cons.injEq,
      List.append_nil] at hz
    obtain ⟨rfl, rfl⟩ := hz
    obtain ⟨w, rpar, tail, rfl, hrpar, hw, htail⟩ := left.of_lpar hlpar hl hrest
    refine ⟨w, rpar, tail ++ sign :: r.leaves, by simp, hrpar, hw, fun y hy => ?_⟩
    rw [← List.append_assoc]
    exact (htail y hy).operator (GrammarSymbol.terminal.inj hsign) ⟨r, hr, hrsymbol, rfl⟩
  | .node .paren [.leaf lpar', t, .leaf rpar], _, z, .paren value, ht, hz => by
    obtain ⟨hbody, -, hwf, -⟩ := ht
    obtain ⟨hsymbol, hlast⟩ := List.cons.inj (List.cons.inj hbody).2
    have hrpar := GrammarSymbol.terminal.inj (List.head_eq_of_cons_eq hlast)
    refine ⟨t.leaves, rpar, [], ?_, hrpar, ⟨t, hwf, hsymbol, rfl⟩, fun y hy => by simpa using hy⟩
    simpa [Tree.leaves, Tree.leavesAll] using (List.cons.inj hz).2.symm
  | _, _, _, .assignTo _, ht, hz | _, _, _, .not _, ht, hz | _, _, _, .int, ht, hz
  | _, _, _, .float _, ht, hz | _, _, _, .string _, ht, hz | _, _, _, .name, ht, hz
  | _, _, _, .call _, ht, hz | _, _, _, .callEmpty, ht, hz => by
    have hkind := kind_of_body ht rfl
    obtain rfl := (List.cons.inj hz).1
    rw [hlpar] at hkind
    cases hkind

theorem body_of_atom {r : Rule} (hr : r.category = .atom) :
    r.body = [.terminal .name] ∨ ∃ xs kind, r.body = xs ++ [.terminal kind] ∧ kind ≠ .name := by
  have hmem := r.mem_rules
  rw [hr] at hmem
  simp only [Category.rules, List.mem_cons, List.not_mem_nil, or_false] at hmem
  rcases hmem with rfl | rfl | rfl | rfl | rfl | rfl | rfl
  · exact .inr ⟨[], .intLit, rfl, by decide⟩
  · exact .inr ⟨[], .floatLit, rfl, by decide⟩
  · exact .inr ⟨[], .stringLit, rfl, by decide⟩
  · exact .inr ⟨[.terminal .name, .terminal .lpar, .phrase .args], .rpar, rfl, by decide⟩
  · exact .inr ⟨[.terminal .name, .terminal .lpar], .rpar, rfl, by decide⟩
  · exact .inl rfl
  · exact .inr ⟨[.terminal .lpar, .phrase .expr], .rpar, rfl, by decide⟩

theorem leaves_of_last {r : Rule} {xs : List GrammarSymbol} {kind : Terminal} {ts : List Tree}
    (h : (Tree.node r ts).WellFormed) (hr : r.body = xs ++ [.terminal kind]) :
    ∃ us token, ts = us ++ [.leaf token] ∧ us.map Tree.symbol = xs ∧ token.kind = kind := by
  have hbody := h.1.trans hr
  obtain ⟨us, last, rfl, hlast⟩ := exists_append_of_map_eq hbody
  cases last with
  | node r' ts' => cases hlast
  | leaf token =>
    rw [List.map_append] at hbody
    exact ⟨us, token, rfl, (List.append_inj' hbody rfl).1, GrammarSymbol.terminal.inj hlast⟩

theorem eq_nil_of_atom {t : Tree} {w : List Token} {x : Token} (ht : t.WellFormed)
    (hsymbol : t.symbol = .phrase .atom) (hleaves : t.leaves = w ++ [x]) (hx : x.kind = .name) :
    w = [] := by
  cases t with
  | leaf token => cases hsymbol
  | node r ts =>
    rcases body_of_atom (GrammarSymbol.phrase.inj hsymbol) with hbody | ⟨xs, kind, hbody, hkind⟩
    · obtain ⟨us, token, rfl, hus, -⟩ := @leaves_of_last r [] .name ts ht hbody
      obtain rfl := List.map_eq_nil_iff.mp hus
      have hsame : [] ++ [token] = w ++ [x] := hleaves
      exact (List.append_inj' hsame rfl).1.symm
    · obtain ⟨us, token, rfl, -, htoken⟩ := leaves_of_last ht hbody
      rw [Tree.leaves, Tree.leavesAll_append] at hleaves
      have hsame := (List.append_inj' hleaves rfl).2
      rw [← (List.cons.inj hsame).1, htoken] at hx
      exact absurd hx hkind

theorem exists_append_last {u w z : List Token} {x : Token} (h : u ++ z = w ++ [x]) (hz : z ≠ []) :
    ∃ z', z = z' ++ [x] ∧ w = u ++ z' := by
  obtain ⟨z', x', rfl⟩ := (List.eq_nil_or_concat z).resolve_left hz
  rw [List.concat_eq_append, ← List.append_assoc] at h
  obtain ⟨hw, hx⟩ := List.append_inj' h rfl
  obtain rfl := (List.cons.inj hx).1
  exact ⟨z', List.concat_eq_append, hw.symm⟩

/-- An expression that ends with a name and one that starts with a parenthesis make one. -/
theorem IsPhrase.call {x lpar : Token} {w z : List Token} (h : IsPhrase .expr (w ++ [x]))
    (hx : x.kind = .name) (h' : IsPhrase .expr (lpar :: z)) (hlpar : lpar.kind = .lpar) :
    IsPhrase .expr (w ++ x :: lpar :: z) := by
  obtain ⟨t, ht, hsymbol, hleaves⟩ := h
  obtain ⟨t', ht', hsymbol', hleaves'⟩ := h'
  obtain ⟨e', he'⟩ : ∃ e', SpellsExpr t' e' := @spells_of_wellFormed [] t' .expr ht' hsymbol'
  obtain ⟨v, rpar, tail, rfl, hrpar, ⟨arg, harg⟩, htail⟩ := he'.of_lpar hlpar ht' hleaves'
  obtain ⟨path, u, a, ha, hasymbol⟩ :=
    @exists_occurs_at_end .expr .atom (by decide) t ht hsymbol (by decide)
  have hcall : (Tree.node .callArgs
      [.leaf x, .leaf lpar, .node .argsOne [arg], .leaf rpar]).WellFormed := by
    refine ⟨?_, trivial, trivial, ⟨?_, harg.wellFormed, trivial⟩, trivial, trivial⟩
    · simp [hx, hlpar, hrpar, Rule.body, Rule.category]
    · simp [harg.symbol, Rule.body]
  obtain ⟨whole, hwhole⟩ := ha.replace ht hcall (by rw [hasymbol]; rfl)
  have hu : u = w := by
    have hsame : u ++ a.leaves = w ++ [x] := by
      rw [← hleaves, ha.leaves, List.append_nil]
    have hne := Tree.leaves_ne_nil (ha.wellFormed ht) hasymbol rfl
    obtain ⟨w', hw', rfl⟩ := exists_append_last hsame hne
    obtain rfl := eq_nil_of_atom (ha.wellFormed ht) hasymbol hw' hx
    simp
  rw [hsymbol, hu] at hwhole
  have hphrase : IsPhrase .expr (w ++ x :: lpar :: (v ++ [rpar])) :=
    ⟨whole, by simpa [Tree.leaves, Tree.leavesAll, harg.leaves] using hwhole⟩
  have hjoined := htail _ hphrase
  simpa using hjoined

/-! ## Statements -/

theorem Tree.eq_leaf_of_symbol {t : Tree} {kind : Terminal} (h : t.symbol = .terminal kind) :
    ∃ token, t = .leaf token ∧ token.kind = kind := by
  cases t with
  | leaf token => exact ⟨token, rfl, GrammarSymbol.terminal.inj h⟩
  | node r ts => cases h

theorem IsPhrase.stmt {form : StmtForm} {w : List Token} (h : IsPhrase form.category w) :
    IsPhrase .stmt w := by
  obtain ⟨t, ht, hsymbol, rfl⟩ := h
  refine ⟨.node (.stmt form) [t], ⟨?_, ht, trivial⟩, rfl, ?_⟩
  · simp [hsymbol, Rule.body]
  · simp [Tree.leaves, Tree.leavesAll]

theorem IsPhrase.returnValue {kw semi : Token} {w : List Token} (h : IsPhrase .expr w)
    (hkw : kw.kind = .returnKw) (hsemi : semi.kind = .semicolon) :
    IsPhrase .returnStmt (kw :: w ++ [semi]) := by
  obtain ⟨t, ht, hsymbol, rfl⟩ := h
  refine ⟨.node .returnValue [.leaf kw, t, .leaf semi], ⟨?_, trivial, ht, trivial, trivial⟩, rfl,
    ?_⟩
  · simp [hsymbol, hkw, hsemi, Rule.body]
  · simp [Tree.leaves, Tree.leavesAll]

theorem form_of_first {form : StmtForm} {kind : Terminal} (h : kind ∈ form.category.first)
    (hkind : kind ∈ Category.exprStart) : form = .expr := by
  have hall : Category.exprStart.all fun kind =>
    !form.category.first.contains kind || form == .expr := by cases form <;> decide
  have hfound := List.all_eq_true.mp hall kind hkind
  simpa [h] using hfound

theorem exists_form_of_category {r : Rule} (h : r.category = .stmt) : ∃ form, r = .stmt form := by
  have hmem := r.mem_rules
  rw [h] at hmem
  simp only [Category.rules, List.mem_cons, List.not_mem_nil, or_false] at hmem
  rcases hmem with h | h | h | h | h | h | h <;> exact ⟨_, h⟩

theorem exists_form_of_stmt {t : Tree} (ht : t.WellFormed) (hsymbol : t.symbol = .phrase .stmt) :
    ∃ form part, t = .node (.stmt form) [part] ∧ part.WellFormed ∧
      part.symbol = .phrase form.category := by
  cases t with
  | leaf token => cases hsymbol
  | node r ts =>
    obtain ⟨form, rfl⟩ := exists_form_of_category (GrammarSymbol.phrase.inj hsymbol)
    obtain ⟨part, rest, rfl, hpart, hrest⟩ := List.map_eq_cons_iff.mp ht.1
    obtain rfl := List.map_eq_nil_iff.mp hrest
    exact ⟨form, part, rfl, ht.2.1, hpart⟩

theorem exprStmt_of_first {t : Tree} {first : Token} {w : List Token} (ht : t.WellFormed)
    (hsymbol : t.symbol = .phrase .stmt) (hleaves : t.leaves = first :: w)
    (hfirst : first.kind ∈ Category.exprStart) :
    ∃ z semi, first :: w = z ++ [semi] ∧ semi.kind = .semicolon ∧ IsPhrase .expr z := by
  obtain ⟨form, part, rfl, hpart, hform⟩ := exists_form_of_stmt ht hsymbol
  rw [Tree.leaves, Tree.leavesAll, Tree.leavesAll, List.append_nil] at hleaves
  have hstart := (Tree.leaves_start hpart).2 first w hleaves
  rw [hform] at hstart
  obtain rfl := form_of_first hstart hfirst
  cases part with
  | leaf token => cases hform
  | node r ts =>
    obtain rfl : r = .exprStmt := by
      have hmem := r.mem_rules
      rw [show r.category = .exprStmt from GrammarSymbol.phrase.inj hform] at hmem
      simpa [Category.rules] using hmem
    obtain ⟨us, semi, rfl, hus, hsemi⟩ := @leaves_of_last .exprStmt [.phrase .expr] .semicolon ts
      hpart rfl
    obtain ⟨e, rest, rfl, he, hrest⟩ := List.map_eq_cons_iff.mp hus
    obtain rfl := List.map_eq_nil_iff.mp hrest
    refine ⟨e.leaves, semi, ?_, hsemi, e, hpart.2.1, he, rfl⟩
    simpa [Tree.leaves, Tree.leavesAll] using hleaves.symm

/-! ## The statement after a statement -/

namespace Tree.Occurs

variable {root : Tree} {path : List Rule} {u v : List Token}

theorem exists_cons {t : Tree} (h : Occurs root path u t v)
    (hprogram : root.symbol = .phrase .program) (ht : t.symbol ≠ .phrase .program) :
    ∃ r path', path = r :: path' := by
  cases h with
  | root => exact absurd hprogram ht
  | part _ => exact ⟨_, _, rfl⟩

theorem stmts_of_stmt {t : Tree} (hroot : root.WellFormed)
    (hprogram : root.symbol = .phrase .program) (h : Occurs root path u t v)
    (ht : t.symbol = .phrase .stmt) :
    ∃ path' u' ss, Occurs root path' u' ss v ∧ ss.symbol = .phrase .stmts ∧
      ∀ w, IsPhrase .stmt w → ∃ w', IsPhrase .stmts w' ∧ u' ++ w' = u ++ w := by
  obtain ⟨r, path, rfl⟩ := h.exists_cons hprogram (by simp [ht])
  have hmem := h.symbol_mem_body hroot
  rw [ht] at hmem
  have hr : r = .stmtsFirst ∨ r = .stmtsMore := by
    have hall := Rule.of_all_rules (p := fun r => !r.body.contains (.phrase .stmt) ||
      (r == .stmtsFirst || r == .stmtsMore)) (by decide +kernel) r
    simpa [hmem] using hall
  rcases hr with rfl | rfl
  · refine ⟨path, u, _, h.only hroot rfl, rfl, fun w ⟨t', ht'⟩ => ⟨w, ?_, rfl⟩⟩
    refine ⟨.node .stmtsFirst [t'], ⟨?_, ht'.wellFormed, trivial⟩, rfl, ?_⟩
    · simp [ht'.symbol, Rule.body]
    · simp [Tree.leaves, Tree.leavesAll, ht'.leaves]
  · obtain ⟨ts, us, u', v', hwhole, rfl, rfl⟩ := h.parent
    obtain ⟨hbody, hparts⟩ := hwhole.wellFormed hroot
    rcases ts with _ | ⟨before, _ | ⟨other, ts⟩⟩
    · simp [ht, Rule.body] at hbody
    · simp only [List.cons_append, List.nil_append, List.map_cons, Rule.body, List.cons.injEq,
        List.map_eq_nil_iff] at hbody
      obtain ⟨hbefore, -, rfl⟩ := hbody
      refine ⟨path, u', _, hwhole, rfl, fun w ⟨t', ht'⟩ => ⟨before.leaves ++ w, ?_, ?_⟩⟩
      · refine ⟨.node .stmtsMore [before, t'], ⟨?_, hparts.1, ht'.wellFormed, trivial⟩, rfl, ?_⟩
        · simp [hbefore, ht'.symbol, Rule.body]
        · simp [Tree.leaves, Tree.leavesAll, ht'.leaves]
      · simp [Tree.leavesAll]
    · simp [Rule.body] at hbody

theorem next_of_stmts {ss : Tree} (hroot : root.WellFormed)
    (hprogram : root.symbol = .phrase .program) (h : Occurs root path u ss v)
    (hss : ss.symbol = .phrase .stmts) :
    (∃ rbrace v', v = rbrace :: v' ∧ rbrace.kind = .rbrace) ∨
      ∃ path' s v', Occurs root path' u (.node .stmtsMore [ss, s]) v' ∧ v = s.leaves ++ v' := by
  obtain ⟨r, path, rfl⟩ := h.exists_cons hprogram (by simp [hss])
  have hmem := h.symbol_mem_body hroot
  rw [hss] at hmem
  have hr : r = .blockFull ∨ r = .stmtsMore := by
    have hall := Rule.of_all_rules (p := fun r => !r.body.contains (.phrase .stmts) ||
      (r == .blockFull || r == .stmtsMore)) (by decide +kernel) r
    simpa [hmem] using hall
  obtain ⟨ts, us, u', v', hwhole, rfl, rfl⟩ := h.parent
  have hbody := (hwhole.wellFormed hroot).1
  rcases hr with rfl | rfl
  · rcases ts with _ | ⟨lbrace, _ | ⟨other, _ | ⟨third, ts⟩⟩⟩
    · simp [hss, Rule.body] at hbody
    · simp only [List.cons_append, List.nil_append, List.map_cons, Rule.body,
        List.cons.injEq] at hbody
      obtain ⟨last, rest, rfl, hlast, -⟩ := List.map_eq_cons_iff.mp hbody.2.2
      obtain ⟨rbrace, rfl, hrbrace⟩ := Tree.eq_leaf_of_symbol hlast
      exact .inl ⟨rbrace, _, rfl, hrbrace⟩
    · simp [hss, Rule.body] at hbody
    · simp [Rule.body] at hbody
  · rcases ts with _ | ⟨before, ts⟩
    · simp only [List.nil_append, List.map_cons, Rule.body, List.cons.injEq] at hbody
      obtain ⟨s, rest, rfl, -, hrest⟩ := List.map_eq_cons_iff.mp hbody.2
      obtain rfl := List.map_eq_nil_iff.mp hrest
      refine .inr ⟨path, s, v', by simpa [leavesAll] using hwhole, by simp [leavesAll]⟩
    · rcases ts with _ | ⟨other, ts⟩ <;> simp [hss, Rule.body] at hbody

theorem join_next {t : Tree} {next : Token} (hroot : root.WellFormed)
    (hprogram : root.symbol = .phrase .program) (h : Occurs root path u t (next :: v))
    (ht : t.symbol = .phrase .stmt) (hnext : next.kind ≠ .rbrace) :
    ∃ (s : Tree) (v' : List Token), s.WellFormed ∧ s.symbol = .phrase .stmt ∧
      next :: v = s.leaves ++ v' ∧
      ∀ w, IsPhrase .stmt w → IsPhrase .program (u ++ (w ++ v')) := by
  obtain ⟨path', u', ss, hss, hsymbol, hreplace⟩ := h.stmts_of_stmt hroot hprogram ht
  rcases hss.next_of_stmts hroot hprogram hsymbol with ⟨rbrace, v', heq, hrbrace⟩ |
    ⟨path'', s, v', hboth, hv⟩
  · rw [(List.cons.inj heq).1] at hnext
    exact absurd hrbrace hnext
  · obtain ⟨hbody, -, hs, -⟩ := hboth.wellFormed hroot
    simp only [List.map_cons, Rule.body, List.cons.injEq] at hbody
    refine ⟨s, v', hs, hbody.2.1, hv, fun w hw => ?_⟩
    obtain ⟨w', ⟨joined, hjoined⟩, hw'⟩ := hreplace w hw
    obtain ⟨root', hroot'⟩ := hboth.replace hroot hjoined.wellFormed hjoined.symbol
    refine ⟨root', ?_⟩
    rw [hprogram, hjoined.leaves, ← List.append_assoc, hw', List.append_assoc] at hroot'
    exact hroot'

end Tree.Occurs

end Sema
