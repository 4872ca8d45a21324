import Sema.Proofs.Automaton.Lookaheads
import Sema.Proofs.Parsing.Spines
import Sema.Proofs.Parsing.Terminators
import Sema.Proofs.Syntax.Parentheses

/-!
# Frames given up for a semicolon

What a recovering parse does with a semicolon right after the end of a statement or of a block.
After a semicolon, that frame is given up and the new one takes its place
(`take_semicolon_terminated`). After a block, the frames are searched for a state in which a
semicolon fits: there is one exactly where the block is in the body of a `for` loop or of a function
with a result type, and it lies in the header, before the closing parenthesis
(`Spine.before_paren`, `Spine.exists_feed`). So the semicolon is dropped (`take_semicolon_dropped`)
or the body is lost, and the parenthesis with it (`take_semicolon_unwound`).
-/

namespace Sema

/-- The categories of the phrases in which a block may be open. -/
def Category.aroundBlocks : List Category :=
  [.program, .decls, .decl, .funcDef, .block, .stmts, .stmt, .ifStmt, .whileStmt, .forStmt]

/-- Whether a symbol ends a block or is a phrase in which a block may be open. -/
def GrammarSymbol.isAroundBlock : GrammarSymbol → Bool
  | .terminal kind => kind == .rbrace
  | .phrase c => Category.aroundBlocks.contains c

/-- The rules with a header before the end of which a semicolon fits. -/
def Rule.resumable : List Rule :=
  [.forLoop, .funcDef .typed true, .funcDef .typed false]

def Rule.blocks : List Rule :=
  [.blockFull, .blockEmpty]

namespace Automaton

/-! ## What the table is checked for -/

theorem isAroundBlock_category {r : Rule} {x : GrammarSymbol} {xs zs : List GrammarSymbol}
    (hx : x.isAroundBlock = true) (h : xs ++ x :: zs = r.body) :
    (GrammarSymbol.phrase r.category).isAroundBlock = true := by
  have hall := Rule.of_all_rules (p := fun r => r.body.all fun x =>
    !x.isAroundBlock || (GrammarSymbol.phrase r.category).isAroundBlock) (by decide +kernel) r
  have hfound := List.all_eq_true.mp hall x (by simp [← h])
  simpa [hx] using hfound

/-- Whether, from a state, a semicolon fits before a part of a rule with an open block only if the
rule is resumable and a parenthesis is closed in between. -/
def semicolonsEarly (s : State) (r : Rule) : Bool :=
  (List.range r.body.length).all fun n => !(r.body.drop n).head?.all (·.isAroundBlock) ||
    (List.range (n + 1)).all fun m => (walk s (r.body.take m)).all fun e =>
      (action? e (.token .semicolon)).isNone ||
        Rule.resumable.contains r && ((r.body.take n).drop m).contains (.terminal .rpar)

/-- Whether a semicolon fits before an open block in the phrase of a step only in the header of a
resumable rule. -/
def fitsInHeaders (s : State) (x : GrammarSymbol) : Bool :=
  !x.isAroundBlock || ofPhrase (fun c => c.rules.all (semicolonsEarly s)) x

/-- Whether a semicolon fits after the condition of a `for` loop. -/
def fitsAfterCondition (s : State) (x : GrammarSymbol) : Bool :=
  !(x == .phrase .forStmt) ||
    (walk s (Rule.forLoop.body.take 5)).any fun e => (next? e (.terminal .semicolon)).isSome

/-- Whether a semicolon fits after the name of a function with a result type. -/
def fitsAfterName (s : State) (x : GrammarSymbol) : Bool :=
  !(x == .phrase .funcDef) || (walk s [.phrase .typeName, .terminal .name]).any fun e =>
    action? e (.token .semicolon) == some (.reduce (.varSpec false false)) &&
      (next? s (.phrase .varSpec)).any fun s₁ => (next? s₁ (.terminal .semicolon)).isSome

/-- Whether a step with a closing brace completes a block. -/
def completesBlock (x : GrammarSymbol) (s' : State) : Bool :=
  !(x == .terminal .rbrace) || (row s').complete.any fun r => Rule.blocks.contains r

theorem semicolons_checked {s s' : State} {x : GrammarSymbol} (h : next? s x = some s') :
    fitsInHeaders s x = true ∧ fitsAfterCondition s x = true ∧ fitsAfterName s x = true ∧
      completesBlock x s' = true := by
  have hall := of_all_edges (p := fun s x s' =>
    fitsInHeaders s x && (fitsAfterCondition s x && (fitsAfterName s x && completesBlock x s')))
    (by decide +kernel) h
  simpa only [Bool.and_eq_true] using hall

/-- Before a part with an open block, a semicolon fits only in the header of a resumable rule. -/
theorem before_paren {s s' e : State} {r : Rule} {x : GrammarSymbol} {xs ys zs : List GrammarSymbol}
    {a : Action} (h : next? s (.phrase r.category) = some s')
    (hbody : xs ++ ys ++ x :: zs = r.body) (hx : x.isAroundBlock = true)
    (hwalk : walk s xs = some e) (ha : action? e (.token .semicolon) = some a) :
    r ∈ Rule.resumable ∧ .terminal .rpar ∈ ys := by
  have hcategory : (GrammarSymbol.phrase r.category).isAroundBlock = true :=
    isAroundBlock_category hx hbody
  have hall := (semicolons_checked h).1
  rw [fitsInHeaders, hcategory, Bool.not_true, Bool.false_or, ofPhrase] at hall
  have hrule := List.all_eq_true.mp hall r r.mem_rules
  have hn := List.all_eq_true.mp hrule (xs ++ ys).length (by
    rw [List.mem_range, ← hbody]
    simp)
  rw [← hbody, List.drop_left, List.head?_cons, Option.all_some, hx, Bool.not_true, Bool.false_or,
    List.take_left] at hn
  have hm := List.all_eq_true.mp hn xs.length (by
    rw [List.mem_range, List.length_append]
    omega)
  rw [List.append_assoc, List.take_left, hwalk, Option.all_some, ha, List.drop_left] at hm
  simpa using hm

theorem exists_semicolon_of_forLoop {s s' : State} (h : next? s (.phrase .forStmt) = some s') :
    ∃ e s₁, walk s (Rule.forLoop.body.take 5) = some e ∧
      next? e (.terminal .semicolon) = some s₁ := by
  have hall := (semicolons_checked h).2.1
  simpa [fitsAfterCondition, Option.any_eq_true, Option.isSome_iff_exists] using hall

/-- After the name of a function with a result type a semicolon fits, as it does after that of a
variable. -/
theorem exists_semicolon_of_typed {s s' : State} (h : next? s (.phrase .funcDef) = some s') :
    ∃ e s₁ s₂, walk s [.phrase .typeName, .terminal .name] = some e ∧
      action? e (.token .semicolon) = some (.reduce (.varSpec false false)) ∧
      next? s (.phrase .varSpec) = some s₁ ∧ next? s₁ (.terminal .semicolon) = some s₂ := by
  have hall := (semicolons_checked h).2.2.1
  simpa [fitsAfterName, Option.any_eq_true, Option.isSome_iff_exists] using hall

theorem complete_of_rbrace {s e : State} (h : next? s (.terminal .rbrace) = some e) :
    ∃ r ∈ Rule.blocks, (row e).complete = some r := by
  have hall := (semicolons_checked h).2.2.2
  rw [completesBlock, beq_self_eq_true, Bool.not_true, Bool.false_or, Option.any_eq_true] at hall
  obtain ⟨r, hr, hmem⟩ := hall
  exact ⟨r, List.contains_iff_mem.mp hmem, hr⟩

theorem action?_of_ended {s : State} {r : Rule} (hr : (row s).complete = some r)
    (hended : r ∈ Rule.terminated ∨ r ∈ Rule.blocks) :
    action? s (.token .semicolon) = none ∧ action? s (.token .rpar) = none := by
  have hall := of_all_states (p := fun s => (row s).complete.all fun r =>
    !(Rule.terminated.contains r || Rule.blocks.contains r) ||
      (action? s (.token .semicolon)).isNone && (action? s (.token .rpar)).isNone)
    (by decide +kernel) (fun s hs => by rw [hs]; rfl) s
  have hmem : (Rule.terminated.contains r || Rule.blocks.contains r) = true := by
    simpa using hended
  rw [hr, Option.all_some, hmem] at hall
  simpa using hall

namespace Stack

/-! ## States in which a semicolon fits -/

theorem feed_of_action?_eq_none {t : Token} {σ : Stack}
    (h : action? (state σ) (.token t.kind) = none) : feed t σ = .error σ := by
  have hsettled : Settled (.token t.kind) σ := by
    intro r hr
    rw [h] at hr
    cases hr
  simp only [feed, settle_of_settled hsettled, h]

theorem map_symbol_trees (σ : Stack) : (trees σ).map Tree.symbol = (symbols σ).reverse := by
  rw [trees, List.map_reverse, List.map_map]
  rfl

theorem Path.of_suffix {σ τ : Stack} (hσ : Path σ) (h : τ <:+ σ) : Path τ := by
  obtain ⟨pre, rfl⟩ := h
  simpa using hσ.drop pre.length

theorem walk_trees {frames σ : Stack} (h : Path (frames ++ σ)) :
    walk (state σ) ((trees frames).map Tree.symbol) = some (state (frames ++ σ)) := by
  have hwalk := walk_symbols_take h frames.length
  rwa [List.drop_left, List.take_left, ← map_symbol_trees] at hwalk

theorem countParens_of_mem {frames : Stack}
    (h : .terminal .rpar ∈ (trees frames).map Tree.symbol) : 0 < countParens (leaves frames) := by
  obtain ⟨tree, htree, hsymbol⟩ := List.mem_map.mp h
  obtain ⟨token, rfl, hkind⟩ := Tree.eq_leaf_of_symbol hsymbol
  obtain ⟨ts, us, hsplit⟩ := List.append_of_mem htree
  have hone : 0 < countParens (Tree.leavesAll (.leaf token :: us)) := by
    simp [Tree.leavesAll, Tree.leaves, hkind]
  rw [leaves, hsplit, Tree.leavesAll_append, countParens_append]
  exact Nat.add_pos_right _ hone

/-- Under a part with an open block, a semicolon fits only in the header of a resumable rule, and
there before a closing parenthesis. -/
theorem Spine.before_paren {path : List Rule} {x : GrammarSymbol} {σ τ : Stack} {a : Action}
    (h : Spine path x σ) (hσ : Path σ) (hx : x.isAroundBlock = true) (hτ : τ <:+ σ)
    (ha : action? (state τ) (.token .semicolon) = some a) :
    (∃ r ∈ path, r ∈ Rule.resumable) ∧ countParens (leaves τ) < countParens (leaves σ) := by
  induction h with
  | root =>
    obtain rfl := List.suffix_nil.mp hτ
    have hnone : action? initial (.token .semicolon) = none := by decide +kernel
    exact absurd (ha.symm.trans hnone) (Option.some_ne_none a)
  | @part path x σ frames r s rest below next parts ih =>
    obtain ⟨pre, hpre⟩ := hτ
    rcases List.append_eq_append_iff.mp hpre with ⟨c, rfl, rfl⟩ | ⟨c, rfl, rfl⟩
    · rw [trees_append, List.map_append] at parts
      have hpath : Path (c ++ σ) := hσ.of_suffix ⟨pre, by rw [List.append_assoc]⟩
      obtain ⟨hr, hparen⟩ := Automaton.before_paren next parts hx (walk_trees hpath) ha
      refine ⟨⟨r, List.mem_cons_self, hr⟩, ?_⟩
      rw [List.append_assoc, leaves_append pre, countParens_append]
      have hcount := countParens_of_mem hparen
      omega
    · have hcategory := isAroundBlock_category hx parts
      obtain ⟨⟨r', hr', hmem⟩, hcount⟩ := ih (hσ.of_suffix ⟨frames, rfl⟩) hcategory ⟨c, rfl⟩
      refine ⟨⟨r', List.mem_cons_of_mem _ hr', hmem⟩, ?_⟩
      rw [leaves_append frames, countParens_append]
      omega

theorem exists_oldest {frames σ : Stack} {xs ys : List GrammarSymbol} {e : State}
    (hσ : Path (frames ++ σ)) (h : (trees frames).map Tree.symbol = xs ++ ys)
    (hwalk : walk (state σ) xs = some e) :
    ∃ c, c ++ σ <:+ frames ++ σ ∧ (trees c).map Tree.symbol = xs ∧ state (c ++ σ) = e := by
  rw [map_symbol_trees, List.reverse_eq_iff, List.reverse_append, symbols] at h
  obtain ⟨pre, c, rfl, -, hc⟩ := List.map_eq_append_iff.mp h
  have hsymbols : (trees c).map Tree.symbol = xs := by
    rw [map_symbol_trees, symbols, hc, List.reverse_reverse]
  have hsuffix : c ++ σ <:+ pre ++ c ++ σ := ⟨pre, by rw [List.append_assoc]⟩
  have hstate := walk_trees (hσ.of_suffix hsuffix)
  rw [hsymbols, hwalk] at hstate
  exact ⟨c, hsuffix, hsymbols, (Option.some.inj hstate).symm⟩

theorem header_of_resumable {r : Rule} {x : GrammarSymbol} {xs zs : List GrammarSymbol}
    (hr : r ∈ Rule.resumable) (hx : x.isAroundBlock = true) (h : xs ++ x :: zs = r.body) :
    r = .forLoop ∧ (∃ ys, xs = Rule.forLoop.body.take 5 ++ ys) ∨
      r.category = .funcDef ∧ ∃ ys, xs = [.phrase .typeName, .terminal .name] ++ ys := by
  have hall : Rule.resumable.all fun r => (List.range r.body.length).all fun n =>
      !(r.body.drop n).head?.all (·.isAroundBlock) ||
        (r == .forLoop && (Rule.forLoop.body.take 5).isPrefixOf (r.body.take n) ||
          r.category == .funcDef &&
            [.phrase .typeName, .terminal .name].isPrefixOf (r.body.take n)) := by decide +kernel
  have hn := List.all_eq_true.mp (List.all_eq_true.mp hall r hr) xs.length (by
    rw [List.mem_range, ← h]
    simp)
  rw [← h, List.drop_left, List.head?_cons, Option.all_some, hx, Bool.not_true, Bool.false_or,
    List.take_left, Bool.or_eq_true, Bool.and_eq_true, Bool.and_eq_true, beq_iff_eq, beq_iff_eq,
    List.isPrefixOf_iff_prefix, List.isPrefixOf_iff_prefix] at hn
  rcases hn with ⟨hloop, ys, hys⟩ | ⟨hfunction, ys, hys⟩
  · exact .inl ⟨hloop, ys, hys.symm⟩
  · exact .inr ⟨hfunction, ys, hys.symm⟩

/-- Under a part of a resumable rule with an open block there is a state in which a semicolon
fits. -/
theorem Spine.exists_feed {path : List Rule} {x : GrammarSymbol} {σ : Stack} {t : Token}
    (h : Spine path x σ) (hσ : Path σ) (hx : x.isAroundBlock = true) (ht : t.kind = .semicolon)
    {r : Rule} (hpath : r ∈ path) (hr : r ∈ Rule.resumable) :
    ∃ τ fed, τ <:+ σ ∧ feed t τ = .ok fed := by
  induction h with
  | root => cases hpath
  | @part path x σ frames r' s rest below next parts ih =>
    rcases List.mem_cons.mp hpath with rfl | hpath
    · rcases header_of_resumable hr hx parts with ⟨rfl, ys, hys⟩ | ⟨hcategory, ys, hys⟩
      · obtain ⟨e, s₁, hwalk, hnext⟩ := exists_semicolon_of_forLoop next
        obtain ⟨c, hsuffix, -, rfl⟩ := exists_oldest hσ hys hwalk
        have hc' := hσ.of_suffix hsuffix
        refine ⟨c ++ σ, _, hsuffix, (feed_eq_ok_iff hc').mpr ⟨c ++ σ, s₁, .refl, ?_, rfl⟩⟩
        rw [ht]
        exact hnext
      · rw [hcategory] at next
        obtain ⟨e, s₁, s₂, hwalk, haction, hspec, hnext⟩ := exists_semicolon_of_typed next
        obtain ⟨c, hsuffix, hc, rfl⟩ := exists_oldest hσ hys hwalk
        have hc' := hσ.of_suffix hsuffix
        obtain ⟨σ', hreduce⟩ := exists_reduce? hc' (action?_eq_reduce haction).1
        obtain ⟨s', hs', rfl⟩ := reduce?_eq_some hreduce
        have hlength : c.length = (Rule.varSpec false false).body.length := by
          simpa [trees, Rule.body] using congrArg List.length hc
        rw [← hlength, List.drop_left] at hs'
        obtain rfl := Option.some.inj (hspec.symm.trans hs')
        refine ⟨c ++ σ, _, hsuffix, (feed_eq_ok_iff hc').mpr
          ⟨_, s₂, .step (by rw [ht]; exact haction) hreduce .refl, ?_, rfl⟩⟩
        rw [ht]
        exact hnext
    · have hcategory := isAroundBlock_category hx parts
      obtain ⟨τ, fed, hτ, hfeed⟩ := ih (hσ.of_suffix ⟨frames, rfl⟩) hcategory hpath
      exact ⟨τ, fed, hτ.trans ⟨frames, rfl⟩, hfeed⟩

end Stack

end Automaton

namespace Parsing

open Automaton
open Automaton.Stack (Spine)

/-! ## Giving up frames -/

theorem unwind?_eq_some {t : Token} {frame : Frame} {σ fed : Stack} {n : Nat}
    (h : unwind? t (frame :: σ) = some (n, fed)) : ∃ τ, τ <:+ σ ∧ Stack.feed t τ = .ok fed := by
  induction σ generalizing frame n with
  | nil =>
    rw [unwind?] at h
    split at h
    · next hfeed =>
      cases h
      exact ⟨[], List.suffix_rfl, hfeed⟩
    · cases h
  | cons next σ ih =>
    rw [unwind?] at h
    split at h
    · next hfeed =>
      cases h
      exact ⟨next :: σ, List.suffix_rfl, hfeed⟩
    · obtain ⟨⟨m, fed'⟩, hunwind, heq⟩ := Option.map_eq_some_iff.mp h
      cases heq
      obtain ⟨τ, hτ, hfeed⟩ := ih hunwind
      exact ⟨τ, hτ.trans (List.suffix_cons next σ), hfeed⟩

theorem exists_unwind? {t : Token} {σ τ fed : Stack} (hτ : τ <:+ σ)
    (hfeed : Stack.feed t τ = .ok fed) (frame : Frame) :
    ∃ n fed', unwind? t (frame :: σ) = some (n, fed') := by
  induction σ generalizing frame with
  | nil =>
    obtain rfl := List.suffix_nil.mp hτ
    exact ⟨1, fed, by simp only [unwind?, hfeed]⟩
  | cons next σ ih =>
    cases hearly : Stack.feed t (next :: σ) with
    | ok fed' => exact ⟨1, fed', by simp only [unwind?, hearly]⟩
    | error settled =>
      rcases List.suffix_cons_iff.mp hτ with rfl | hτ
      · rw [hfeed] at hearly
        cases hearly
      · obtain ⟨n, fed', hunwind⟩ := ih hτ next
        refine ⟨n + 1, fed', ?_⟩
        rw [unwind?, hearly]
        simp only [hunwind, Option.map_some]

/-! ## A semicolon after the end of a statement or of a block -/

section

variable {σ : Stack} {e : State} {r : Rule} {t semi : Token}

theorem insertion?_of_ended (hr : (row e).complete = some r)
    (hended : r ∈ Rule.terminated ∨ r ∈ Rule.blocks) :
    insertion? semi (⟨e, .leaf t⟩ :: σ) = none := by
  obtain ⟨hsemicolon, hparen⟩ := action?_of_ended hr hended
  have hmark (k : Closer) (hk : action? e (.token k.terminal) = none) :
      insert? semi (⟨e, .leaf t⟩ :: σ) k = none := by
    have hfeed : Stack.feed (k.token semi.span) (⟨e, .leaf t⟩ :: σ) = .error (⟨e, .leaf t⟩ :: σ) :=
      Stack.feed_of_action?_eq_none hk
    simp only [insert?, hfeed]
  simp only [insertion?, insertable, List.findSome?_cons, List.findSome?_nil,
    hmark .semicolon hsemicolon, hmark .paren hparen, Option.map_none]

/-- After the end of a statement or of a block, a semicolon makes the parse give up frames, or it is
dropped. -/
theorem take_semicolon (hr : (row e).complete = some r)
    (hended : r ∈ Rule.terminated ∨ r ∈ Rule.blocks) (hsemi : semi.kind = .semicolon) :
    take semi (⟨e, .leaf t⟩ :: σ) =
      match unwind? semi (⟨e, .leaf t⟩ :: σ) with
      | some (n, fed) => ([.unwound n semi (expected e)], fed)
      | none => ([.dropped semi (expected e)], ⟨e, .leaf t⟩ :: σ) := by
  have hfeed : Stack.feed semi (⟨e, .leaf t⟩ :: σ) = .error (⟨e, .leaf t⟩ :: σ) := by
    apply Stack.feed_of_action?_eq_none
    rw [hsemi]
    exact (action?_of_ended hr hended).1
  have hboundary : isBoundary semi = true := by simp [isBoundary, hsemi]
  rw [take_of_feed_error hfeed]
  simp only [repair, insertion?_of_ended hr hended, hboundary, if_true]
  cases unwind? semi (⟨e, .leaf t⟩ :: σ) <;> rfl

/-- A semicolon after one that ends a statement takes its place. -/
theorem take_semicolon_terminated (hr : (row e).complete = some r) (hended : r ∈ Rule.terminated)
    (hsemi : semi.kind = .semicolon) (hσ : Stack.Path σ)
    (hnext : next? (Stack.state σ) (.terminal .semicolon) = some e) :
    take semi (⟨e, .leaf t⟩ :: σ) = ([.unwound 1 semi (expected e)], ⟨e, .leaf semi⟩ :: σ) := by
  have hfeed : Stack.feed semi σ = .ok (⟨e, .leaf semi⟩ :: σ) :=
    (Stack.feed_eq_ok_iff hσ).mpr ⟨σ, e, .refl, by rw [hsemi]; exact hnext, rfl⟩
  rw [take_semicolon hr (.inl hended) hsemi, unwind?, hfeed]

variable {path : List Rule}

/-- A semicolon after a block is dropped, unless the block is in a resumable construct. -/
theorem take_semicolon_dropped (hr : (row e).complete = some r) (hblock : r ∈ Rule.blocks)
    (hsemi : semi.kind = .semicolon) (hσ : Stack.Path σ) (hspine : Spine path (.terminal .rbrace) σ)
    (hpath : ∀ r ∈ path, r ∉ Rule.resumable) :
    take semi (⟨e, .leaf t⟩ :: σ) = ([.dropped semi (expected e)], ⟨e, .leaf t⟩ :: σ) := by
  have hunwind : unwind? semi (⟨e, .leaf t⟩ :: σ) = none := by
    cases h : unwind? semi (⟨e, .leaf t⟩ :: σ) with
    | none => rfl
    | some x =>
      obtain ⟨τ, hτ, hfeed⟩ := unwind?_eq_some h
      obtain ⟨τ', s, hreduces, hnext, -⟩ := (Stack.feed_eq_ok_iff (hσ.of_suffix hτ)).mp hfeed
      obtain ⟨a, ha⟩ := hreduces.exists_action (action?_eq_shift_iff.mpr hnext)
      rw [hsemi] at ha
      obtain ⟨⟨r', hr', hmem⟩, -⟩ := hspine.before_paren hσ rfl hτ ha
      exact absurd hmem (hpath r' hr')
  rw [take_semicolon hr (.inr hblock) hsemi, hunwind]

/-- A semicolon after a block in a resumable construct makes the parse give up frames, down to
before a closing parenthesis. -/
theorem take_semicolon_unwound (hr : (row e).complete = some r) (hblock : r ∈ Rule.blocks)
    (hsemi : semi.kind = .semicolon) (hσ : Stack.Path σ) (hspine : Spine path (.terminal .rbrace) σ)
    {r' : Rule} (hpath : r' ∈ path) (hresumable : r' ∈ Rule.resumable) :
    ∃ n fed, take semi (⟨e, .leaf t⟩ :: σ) = ([.unwound n semi (expected e)], fed) ∧ Stack.Path fed ∧
      countParens (Stack.leaves fed) < countParens (Stack.leaves (⟨e, .leaf t⟩ :: σ)) := by
  obtain ⟨τ, fed, hτ, hfeed⟩ := hspine.exists_feed hσ rfl hsemi hpath hresumable
  obtain ⟨n, fed, hunwind⟩ := exists_unwind? hτ hfeed ⟨e, .leaf t⟩
  obtain ⟨τ, hτ, hfeed⟩ := unwind?_eq_some hunwind
  have hpathτ := hσ.of_suffix hτ
  obtain ⟨hfed, hleaves⟩ := Stack.path_of_feed_ok hpathτ hfeed
  refine ⟨n, fed, by rw [take_semicolon hr (.inr hblock) hsemi, hunwind], hfed, ?_⟩
  obtain ⟨τ', s, hreduces, hnext, -⟩ := (Stack.feed_eq_ok_iff hpathτ).mp hfeed
  obtain ⟨a, ha⟩ := hreduces.exists_action (action?_eq_shift_iff.mpr hnext)
  rw [hsemi] at ha
  have hcount := (hspine.before_paren hσ rfl hτ ha).2
  rw [hleaves, Stack.leaves_cons, countParens_append, countParens_append]
  simp only [countParens_cons, countParens_nil, hsemi, reduceCtorEq, if_false]
  omega

end

end Parsing

end Sema
