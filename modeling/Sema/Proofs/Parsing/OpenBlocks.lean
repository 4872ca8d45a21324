import Sema.Proofs.Automaton.Lookaheads
import Sema.Proofs.Parsing.Unwinding

/-!
# Blocks that are open on a stack

The innermost block that is open on a stack starts with the newest opening brace that no closing one
stands against (`openBlock`). Rules that are applied take opening and closing braces off the stack
together, so the block stays the innermost one (`openBlock_reduces`), and a closing brace that fits
stands right after its statements (`feed_rbrace`).

The statements of a block that are complete stay together on the stack, right after the opening
brace, whatever is read after them (`Keeps`, `Keeps.reads`). The frames after the brace are what the
automaton makes of their own tokens (`reads_frames`), so statements are complete on the stack where
they are complete in the text (`exists_keeps`).
-/

namespace Sema

namespace Tree

def statements : Tree → List Tree
  | .node .stmtsFirst [s] => [s]
  | .node .stmtsMore [ss, s] => statements ss ++ [s]
  | _ => []

end Tree

namespace Automaton

/-! ## Braces -/

/-- How many closing braces are to be matched below a symbol, with `n` of them above it. There is no
such number for an opening brace that none stands against. -/
def matchBrace (n : Nat) : GrammarSymbol → Option Nat
  | .terminal .rbrace => some (n + 1)
  | .terminal .lbrace => if n = 0 then none else some (n - 1)
  | _ => some n

/-- How many closing braces are to be matched below symbols, the newest of which stands first. -/
def matchBraces (n : Nat) : List GrammarSymbol → Option Nat
  | [] => some n
  | x :: xs => (matchBrace n x).bind (matchBraces · xs)

theorem matchBrace_eq_none {n : Nat} {x : GrammarSymbol} (h : matchBrace n x = none) :
    n = 0 ∧ x = .terminal .lbrace := by
  unfold matchBrace at h
  split at h
  · cases h
  · split at h
    · exact ⟨‹_›, rfl⟩
    · cases h
  · cases h

theorem matchBraces_of_append {xs ys : List GrammarSymbol} {n : Nat}
    (hxs : .terminal .rbrace ∉ xs) (h : matchBraces 0 (xs ++ ys) = some n) :
    matchBraces 0 ys = some n := by
  induction xs with
  | nil => exact h
  | cons x xs ih =>
    obtain ⟨hx, hxs⟩ := not_or.mp (mt List.mem_cons.mpr hxs)
    have hzero : matchBrace 0 x = none ∨ matchBrace 0 x = some 0 := by
      unfold matchBrace
      split
      · exact absurd rfl hx
      · exact .inl (if_pos rfl)
      · exact .inr rfl
    rw [List.cons_append, matchBraces] at h
    rcases hzero with hnone | hzero
    · rw [hnone] at h
      cases h
    · rw [hzero] at h
      exact ih hxs h

namespace Stack

/-- The frames from the innermost open block down, where `n` closing braces are to be matched
first. -/
def openFrom (n : Nat) : Stack → Option Stack
  | [] => none
  | frame :: σ =>
    match matchBrace n frame.tree.symbol with
    | some m => openFrom m σ
    | none => some (frame :: σ)

/-- The frames from the opening brace of the innermost open block down. -/
def openBlock (σ : Stack) : Option Stack :=
  openFrom 0 σ

theorem openFrom_append {frames : Stack} {n m : Nat}
    (h : matchBraces n (symbols frames) = some m) (σ : Stack) :
    openFrom n (frames ++ σ) = openFrom m σ := by
  induction frames generalizing n with
  | nil =>
    cases h
    rfl
  | cons frame frames ih =>
    obtain ⟨k, hk, hrest⟩ := Option.bind_eq_some_iff.mp h
    rw [List.cons_append, openFrom, hk]
    exact ih hrest

theorem openFrom_eq_some {σ ρ : Stack} {n : Nat} (h : openFrom n σ = some ρ) :
    ∃ frames brace below, σ = frames ++ ρ ∧ matchBraces n (symbols frames) = some 0 ∧
      ρ = brace :: below ∧ brace.tree.symbol = .terminal .lbrace := by
  induction σ generalizing n with
  | nil => cases h
  | cons frame σ ih =>
    unfold openFrom at h
    split at h
    · next m hm =>
      obtain ⟨frames, brace, below, rfl, hmatch, hρ, hbrace⟩ := ih h
      refine ⟨frame :: frames, brace, below, rfl, ?_, hρ, hbrace⟩
      rw [symbols, List.map_cons, matchBraces, hm]
      exact hmatch
    · next hnone =>
      cases h
      obtain ⟨rfl, hbrace⟩ := matchBrace_eq_none hnone
      exact ⟨[], frame, σ, rfl, rfl, rfl, hbrace⟩

theorem suffix_of_openBlock {σ ρ : Stack} (h : openBlock σ = some ρ) : ρ <:+ σ := by
  obtain ⟨frames, -, -, rfl, -⟩ := openFrom_eq_some h
  exact ⟨frames, rfl⟩

theorem openBlock_lbrace {brace : Frame} {below : Stack}
    (h : brace.tree.symbol = .terminal .lbrace) :
    openBlock (brace :: below) = some (brace :: below) := by
  rw [openBlock, openFrom, h]
  rfl

theorem openBlock_cons {frame : Frame} {σ : Stack} (h : matchBrace 0 frame.tree.symbol = some 0) :
    openBlock (frame :: σ) = openBlock σ := by
  rw [openBlock, openFrom, h]
  rfl

end Stack

/-! ## What the table is checked for -/

/-- Whether a step with an opening brace leads to where a closing one fits, right away and after
statements. -/
def opensBlock (x : GrammarSymbol) (s' : State) : Bool :=
  !(x == .terminal .lbrace) ||
    (next? s' (.terminal .rbrace)).isSome && (next? s' (.phrase .stmts)).any fun s₁ =>
      (row s₁).complete.isNone && (next? s₁ (.terminal .rbrace)).isSome

/-- Whether a step with a closing brace comes right after an opening one or after statements, and
leads to where nothing follows. -/
def closesBlock (s : State) (x : GrammarSymbol) (s' : State) : Bool :=
  !(x == .terminal .rbrace) ||
    (past s == [.terminal .lbrace] || past s == [.phrase .stmts, .terminal .lbrace]) &&
      (edges s').isEmpty

/-- Whether a step goes on with `else`, if a closing brace may follow the rule that is complete. -/
def goesOnWithElse (s : State) (x : GrammarSymbol) : Bool :=
  (row s).complete.all fun r => !r.category.allows (.token .rbrace) || x == .terminal .elseKw

def leadsOn (s : State) : Bool :=
  Lookahead.byLabel.any fun la => (action? s la).isSome

theorem blocks_checked {s s' : State} {x : GrammarSymbol} (h : next? s x = some s') :
    opensBlock x s' = true ∧ closesBlock s x s' = true ∧ goesOnWithElse s x = true ∧
      leadsOn s' = true := by
  have hall := of_all_edges (p := fun s x s' =>
    opensBlock x s' && (closesBlock s x s' && (goesOnWithElse s x && leadsOn s')))
    (by decide +kernel) h
  simpa only [Bool.and_eq_true] using hall

/-- After an opening brace, no rule is complete, and a closing brace fits right away and after
statements. -/
theorem rbrace_of_lbrace {s s' : State} (h : next? s (.terminal .lbrace) = some s') :
    ∃ e s₁ e₁, next? s' (.terminal .rbrace) = some e ∧ next? s' (.phrase .stmts) = some s₁ ∧
      (row s₁).complete = none ∧ next? s₁ (.terminal .rbrace) = some e₁ := by
  have hall := (blocks_checked h).1
  simp only [opensBlock, beq_self_eq_true, Bool.not_true, Bool.false_or, Bool.and_eq_true, Option.any_eq_true,
    Option.isNone_iff_eq_none, Option.isSome_iff_exists] at hall
  obtain ⟨⟨e, he⟩, s₁, hs₁, hcomplete, e₁, he₁⟩ := hall
  exact ⟨e, s₁, e₁, he, hs₁, hcomplete, he₁⟩

/-- A closing brace fits right after an opening one or after statements only, and nothing follows it
before the block is made. -/
theorem past_of_rbrace {s e : State} (h : next? s (.terminal .rbrace) = some e) :
    (past s = [.terminal .lbrace] ∨ past s = [.phrase .stmts, .terminal .lbrace]) ∧
      edges e = [] := by
  have hall := (blocks_checked h).2.1
  simpa [closesBlock] using hall

theorem eq_elseKw_of_complete {s s' : State} {r : Rule} {kind : Terminal}
    (hr : (row s).complete = some r) (hallows : r.category.allows (.token .rbrace) = true)
    (h : next? s (.terminal kind) = some s') : kind = .elseKw := by
  have hall := (blocks_checked h).2.2.1
  simpa [goesOnWithElse, hr, hallows] using hall

theorem exists_action_of_next? {s s' : State} {x : GrammarSymbol} (h : next? s x = some s') :
    ∃ la a, action? s' la = some a := by
  obtain ⟨la, -, hla⟩ := List.any_eq_true.mp (blocks_checked h).2.2.2
  exact ⟨la, Option.isSome_iff_exists.mp hla⟩

theorem eq_stmtsMore_of_body {r : Rule} {xs : List GrammarSymbol}
    (h : r.body = .phrase .stmts :: xs) : r = .stmtsMore := by
  have hall := Rule.of_all_rules (p := fun r => r.body.head? != some (.phrase .stmts) ||
    r == .stmtsMore) (by decide +kernel) r
  simpa [h] using hall

theorem matchBraces_body (r : Rule) : matchBraces 0 r.body.reverse = some 0 := by
  have hall := Rule.of_all_rules (p := fun r => matchBraces 0 r.body.reverse == some 0)
    (by decide +kernel) r
  simpa using hall

namespace Stack

/-! ## The innermost open block -/

theorem openBlock_reduces {la : Lookahead} {σ σ' : Stack} (hσ : Path σ) (h : Reduces la σ σ') :
    openBlock σ' = openBlock σ := by
  induction h with
  | refl => rfl
  | @step σ σ₁ σ' r action reduce _ ih =>
    have hr := (action?_eq_reduce action).1
    rw [ih (path_reduce? hσ hr reduce).1]
    obtain ⟨s, -, rfl⟩ := reduce?_eq_some reduce
    have hparts : matchBraces 0 (symbols (σ.take r.body.length)) = some 0 := by
      rw [symbols_take_of_complete hσ hr]
      exact matchBraces_body r
    have happend := openFrom_append hparts (σ.drop r.body.length)
    rw [List.take_append_drop] at happend
    rw [openBlock_cons rfl, openBlock, openBlock, happend]

theorem openBlock_feed {t : Token} {σ σ' : Stack} (hσ : Path σ) (h : feed t σ = .ok σ')
    (ht : matchBrace 0 (.terminal t.kind) = some 0) : openBlock σ' = openBlock σ := by
  obtain ⟨σ₁, s, hreduces, -, rfl⟩ := (feed_eq_ok_iff hσ).mp h
  have hcons : openBlock (⟨s, .leaf t⟩ :: σ₁) = openBlock σ₁ := openBlock_cons ht
  rw [hcons, openBlock_reduces hσ hreduces]

/-- A closing brace is shifted right after the opening brace of the innermost open block or after its
statements. -/
theorem feed_rbrace {t : Token} {σ σ' : Stack} (hσ : Path σ) (ht : t.kind = .rbrace)
    (h : feed t σ = .ok σ') :
    ∃ s body ρ, σ' = ⟨s, .leaf t⟩ :: (body ++ ρ) ∧ settle (.token .rbrace) σ = body ++ ρ ∧
      openBlock σ = some ρ ∧
      (body = [] ∨ ∃ frame, body = [frame] ∧ frame.tree.symbol = .phrase .stmts) := by
  obtain ⟨σ₁, s, hreduces, hnext, rfl⟩ := (feed_eq_ok_iff hσ).mp h
  have hsettle := settle_eq hσ hreduces (settled_of_shift hnext)
  rw [ht] at hreduces hnext hsettle
  rw [hsettle, ← openBlock_reduces hσ hreduces]
  have hpast := past_prefix_symbols (hreduces.path hσ).1
  rcases (past_of_rbrace hnext).1 with hlbrace | hstmts
  · rw [hlbrace] at hpast
    rcases σ₁ with _ | ⟨brace, below⟩
    · simp [symbols] at hpast
    · have hbrace : .terminal .lbrace = brace.tree.symbol := (List.cons_prefix_cons.mp hpast).1
      exact ⟨s, [], brace :: below, rfl, rfl, openBlock_lbrace hbrace.symm, .inl rfl⟩
  · rw [hstmts] at hpast
    rcases σ₁ with _ | ⟨frame, _ | ⟨brace, below⟩⟩
    · simp [symbols] at hpast
    · simp [symbols] at hpast
    · obtain ⟨hframe, hpast⟩ := List.cons_prefix_cons.mp hpast
      have hstmts : frame.tree.symbol = .phrase .stmts := hframe.symm
      have hbrace : .terminal .lbrace = brace.tree.symbol := (List.cons_prefix_cons.mp hpast).1
      refine ⟨s, [frame], brace :: below, rfl, rfl, ?_, .inr ⟨frame, rfl, hstmts⟩⟩
      rw [openBlock_cons (by rw [hstmts]; rfl)]
      exact openBlock_lbrace hbrace.symm

/-! ## Frames that stay -/

/-- Frames that are left after rules have been applied were there before, except for the newest
one. -/
theorem suffix_of_reduces {la : Lookahead} {σ σ' ρ : Stack} (hσ : Path σ) (h : Reduces la σ σ')
    (hρ : ρ <:+ σ') (hlt : (leaves ρ).length < (leaves σ).length) : ρ <:+ σ := by
  induction h with
  | refl => exact hρ
  | @step σ σ₁ σ' r action reduce _ ih =>
    obtain ⟨hpath, hleaves⟩ := path_reduce? hσ (action?_eq_reduce action).1 reduce
    have hbefore := ih hpath hρ (by rw [hleaves]; exact hlt)
    obtain ⟨s, -, rfl⟩ := reduce?_eq_some reduce
    rcases List.suffix_cons_iff.mp hbefore with rfl | hbefore
    · rw [hleaves] at hlt
      omega
    · exact hbefore.trans (List.drop_suffix _ σ)

theorem suffix_of_reads {la : Lookahead} {σ σ' ρ : Stack} {w : List Token} (hσ : Path σ)
    (h : Reads la σ w σ') (hρ : ρ <:+ σ') (hlt : (leaves ρ).length < (leaves σ).length) :
    ρ <:+ σ := by
  induction h with
  | done reduces => exact suffix_of_reduces hσ reduces hρ hlt
  | @shift σ σ₁ σ' t w s reduces next _ ih =>
    obtain ⟨hpath, hleaves⟩ := reduces.path hσ
    have hlonger : (leaves ρ).length < (leaves (⟨s, .leaf t⟩ :: σ₁)).length := by
      rw [leaves_cons, List.length_append, hleaves]
      omega
    have hnewer := ih (.cons hpath trivial next) hρ hlonger
    rcases List.suffix_cons_iff.mp hnewer with rfl | hbefore
    · omega
    · exact suffix_of_reduces hσ reduces hbefore hlt

/-! ## Statements that stay -/

/-- The first statements of the block that starts with the frames `ρ` are those of `T`. -/
def Keeps (T : Tree) (ρ σ : Stack) : Prop :=
  ∃ upper frame, σ = upper ++ frame :: ρ ∧ frame.tree.symbol = .phrase .stmts ∧
    T.statements <+: frame.tree.statements

namespace Keeps

variable {T : Tree} {ρ σ σ' : Stack}

theorem length_lt (h : Keeps T ρ σ) (hσ : Path σ) : (leaves ρ).length < (leaves σ).length := by
  obtain ⟨upper, frame, rfl, hsymbol, -⟩ := h
  have htree : frame.tree.WellFormed := hσ.allWellFormed frame (by simp)
  have hne : frame.tree.leaves ≠ [] := by
    intro hnil
    have hempty := (Tree.leaves_start htree).1 hnil
    rw [hsymbol] at hempty
    cases hempty
  have hpos := List.length_pos_iff.mpr hne
  rw [leaves_append, leaves_cons, List.length_append, List.length_append]
  omega

theorem reduce? {r : Rule} (h : Keeps T ρ σ) (hσ : Path σ)
    (hr : (row (state σ)).complete = some r) (hreduce : Stack.reduce? r σ = some σ')
    (hρ : ρ <:+ σ') : Keeps T ρ σ' := by
  have hlt := h.length_lt hσ
  rw [← (path_reduce? hσ hr hreduce).2] at hlt
  have hparts := symbols_take_of_complete hσ hr
  obtain ⟨s, -, rfl⟩ := reduce?_eq_some hreduce
  obtain ⟨upper, frame, rfl, hsymbol, hprefix⟩ := h
  rcases Nat.lt_trichotomy r.body.length (upper.length + 1) with hless | hsame | hmore
  · have hdrop : (upper ++ frame :: ρ).drop r.body.length =
        upper.drop r.body.length ++ frame :: ρ := List.drop_append_of_le_length (by omega)
    rw [hdrop]
    exact ⟨_ :: upper.drop r.body.length, frame, rfl, hsymbol, hprefix⟩
  · -- all frames of the block are parts of the rule, so it is one for more statements
    have htake : (upper ++ frame :: ρ).take r.body.length = upper ++ [frame] := by
      rw [hsame, List.take_length_add_append]
      rfl
    have hdrop : (upper ++ frame :: ρ).drop r.body.length = ρ := by
      rw [hsame, List.drop_length_add_append]
      rfl
    rw [htake, symbols, List.map_append, List.map_singleton, hsymbol] at hparts
    have hbody := List.reverse_eq_iff.mp hparts.symm
    rw [List.reverse_append, List.reverse_singleton, List.singleton_append] at hbody
    obtain rfl := eq_stmtsMore_of_body hbody
    obtain ⟨added, rfl⟩ := List.length_eq_one_iff.mp (by simpa [Rule.body] using hsame.symm)
    rw [htake, hdrop]
    refine ⟨[], _, rfl, rfl, hprefix.trans ?_⟩
    rw [show trees ([added] ++ [frame]) = [frame.tree, added.tree] from rfl, Tree.statements]
    exact List.prefix_append _ _
  · rcases List.suffix_cons_iff.mp hρ with heq | hsuffix
    · exact absurd (congrArg (fun σ => (leaves σ).length) heq) (Nat.ne_of_lt hlt)
    · have hlength := hsuffix.length_le
      have hall := congrArg List.length hparts
      simp only [symbols, List.length_map, List.length_take, List.length_reverse, List.length_drop,
        List.length_append, List.length_cons] at hlength hall
      omega

theorem reduces {la : Lookahead} (h : Keeps T ρ σ) (hσ : Path σ) (hreduces : Reduces la σ σ')
    (hρ : ρ <:+ σ') : Keeps T ρ σ' := by
  induction hreduces with
  | refl => exact h
  | @step σ σ₁ σ' r action reduce rest ih =>
    have hr := (action?_eq_reduce action).1
    obtain ⟨hpath, hleaves⟩ := path_reduce? hσ hr reduce
    have hbefore := suffix_of_reduces hpath rest hρ (by rw [hleaves]; exact h.length_lt hσ)
    exact ih (h.reduce? hσ hr reduce hbefore) hpath hρ

theorem cons (h : Keeps T ρ σ) (frame : Frame) : Keeps T ρ (frame :: σ) := by
  obtain ⟨upper, stmts, rfl, hsymbol, hprefix⟩ := h
  exact ⟨frame :: upper, stmts, rfl, hsymbol, hprefix⟩

/-- What is read leaves the statements alone, or adds some to them, as long as the block stays
open. -/
theorem reads {la : Lookahead} {w : List Token} (h : Keeps T ρ σ) (hσ : Path σ)
    (hreads : Reads la σ w σ') (hρ : ρ <:+ σ') : Keeps T ρ σ' := by
  induction hreads with
  | done reduces => exact h.reduces hσ reduces hρ
  | @shift σ σ₁ σ' t w s reduces next rest ih =>
    obtain ⟨hpath, hleaves⟩ := reduces.path hσ
    have hnext : Path (⟨s, .leaf t⟩ :: σ₁) := .cons hpath trivial next
    have hlt := h.length_lt hσ
    have hlonger : (leaves ρ).length < (leaves (⟨s, .leaf t⟩ :: σ₁)).length := by
      rw [leaves_cons, List.length_append, hleaves]
      omega
    have hnewer := suffix_of_reads hnext rest hρ hlonger
    rcases List.suffix_cons_iff.mp hnewer with rfl | hbefore
    · omega
    · exact ih ((h.reduces hσ reduces hbefore).cons _) hnext hρ

theorem settle (h : Keeps T ρ σ) (hσ : Path σ) (hopen : openBlock σ = some ρ) (la : Lookahead) :
    Keeps T ρ (settle la σ) := by
  have hreduces := reduces_settle la σ
  rw [← openBlock_reduces hσ hreduces] at hopen
  exact h.reduces hσ hreduces (suffix_of_openBlock hopen)

end Keeps

/-! ## Statements that are complete -/

theorem Reads.exists_action {la : Lookahead} {σ σ' : Stack} {w : List Token} {a : Action}
    (h : Reads la σ w σ') (ha : action? (state σ') la = some a) :
    ∃ a', action? (state σ) (peek la w) = some a' := by
  cases h with
  | done reduces => exact reduces.exists_action ha
  | shift reduces next _ => exact reduces.exists_action (action?_eq_shift_iff.mpr next)

theorem Path.exists_action {σ : Stack} (hσ : Path σ) (hne : σ ≠ []) :
    ∃ la a, action? (state σ) la = some a := by
  cases hσ with
  | nil => exact absurd rfl hne
  | cons _ _ next => exact exists_action_of_next? next

/-- Frames are what the automaton makes of their tokens, before anything that fits after them. -/
theorem reads_frames {frames ρ : Stack} {la : Lookahead} {a : Action} (h : Path (frames ++ ρ))
    (ha : action? (state (frames ++ ρ)) la = some a) :
    Reads la ρ (leaves frames) (frames ++ ρ) := by
  induction frames generalizing la a with
  | nil => exact .done .refl
  | cons frame frames ih =>
    cases h with
    | cons below tree next =>
      have hframe : Reads la (frames ++ ρ) frame.tree.leaves (⟨frame.state, frame.tree⟩ ::
          (frames ++ ρ)) := by
        refine reads_tree tree la _ _ next fun c hc => ?_
        rw [hc] at next
        exact allows_of_action? next ha
      obtain ⟨a', ha'⟩ := hframe.exists_action ha
      rw [leaves_cons]
      exact (ih below ha').append hframe

theorem Path.exists_of_lbrace {brace : Frame} {below : Stack} (h : Path (brace :: below))
    (hbrace : brace.tree.symbol = .terminal .lbrace) :
    ∃ e s₁ e₁, next? (state (brace :: below)) (.terminal .rbrace) = some e ∧
      next? (state (brace :: below)) (.phrase .stmts) = some s₁ ∧
      (row s₁).complete = none ∧ next? s₁ (.terminal .rbrace) = some e₁ := by
  cases h with
  | cons _ _ next =>
    rw [hbrace] at next
    exact rbrace_of_lbrace next

theorem reduces_stmts {ρ mid : Stack} {s : State} {T : Tree} {u : List Token} (hρ : Path ρ)
    (hnext : next? (state ρ) (.phrase .stmts) = some s) (hT : T.Derives (.phrase .stmts) u)
    (hmid : feedAll ρ u = some mid) : Reduces (.token .rbrace) mid (⟨s, T⟩ :: ρ) := by
  have hreads : Reads (.token .rbrace) ρ u (⟨s, T⟩ :: ρ) := by
    rw [← hT.leaves]
    refine reads_tree hT.wellFormed _ ρ s (hT.symbol ▸ hnext) fun c hc => ?_
    rw [hT.symbol] at hc
    cases hc
    rfl
  obtain ⟨mid', hmid', hreduces⟩ := (reads_iff hρ).mp hreads
  rw [hmid] at hmid'
  cases hmid'
  exact hreduces

/-- Statements that are complete in the text of a block, and do not go on with `else`, are the first
on the stack when a closing brace comes. -/
theorem exists_keeps {inside ρ below : Stack} {brace : Frame} {u v : List Token} {T : Tree}
    (hσ : Path (inside ++ ρ)) (hρ : ρ = brace :: below)
    (hbrace : brace.tree.symbol = .terminal .lbrace) (hleaves : leaves inside = u ++ v)
    (hT : T.Derives (.phrase .stmts) u) (hv : ∀ t ∈ v.head?, t.kind ≠ .elseKw) :
    ∃ σ', Reduces (.token .rbrace) (inside ++ ρ) σ' ∧ ρ <:+ σ' ∧ Keeps T ρ σ' := by
  have hpath : Path ρ := hσ.of_suffix ⟨inside, rfl⟩
  obtain ⟨-, s₁, -, -, hstmts, hnone, -⟩ := (hρ ▸ hpath).exists_of_lbrace hbrace
  rw [← hρ] at hstmts
  obtain ⟨la, a, ha⟩ := hσ.exists_action (by simp [hρ])
  have hinside := reads_frames hσ ha
  rw [hleaves] at hinside
  obtain ⟨τ, hτ, hreduces⟩ := (reads_iff hpath).mp hinside
  obtain ⟨mid, hmid, hrest⟩ := feedAll_append_eq_some.mp hτ
  have hstatements := reduces_stmts hpath hstmts hT hmid
  have hkeeps : Keeps T ρ (⟨s₁, T⟩ :: ρ) := ⟨[], ⟨s₁, T⟩, rfl, hT.symbol, List.prefix_rfl⟩
  cases v with
  | nil =>
    cases hrest
    rcases hreduces.comparable hstatements with hlater | hlater
    · exact ⟨_, hlater, List.suffix_cons _ _, hkeeps⟩
    · rw [hlater.eq_of_complete_eq_none hnone]
      exact ⟨_, .refl, List.suffix_cons _ _, hkeeps⟩
  | cons t v =>
    obtain ⟨next, hfeed, hlater⟩ := feedAll_cons_eq_some.mp hrest
    have hmidpath := (path_feedAll hpath hmid).1
    have hnextpath := (path_of_feed_ok hmidpath hfeed).1
    obtain ⟨σ₁, s, hbefore, hnext, rfl⟩ := (feed_eq_ok_iff hmidpath).mp hfeed
    have hsame : σ₁ = ⟨s₁, T⟩ :: ρ := by
      rcases hbefore.comparable hstatements with hlonger | hlonger
      · cases hlonger with
        | refl => rfl
        | step action _ _ =>
          obtain ⟨hr, hallows⟩ := action?_eq_reduce action
          exact absurd (eq_elseKw_of_complete hr hallows hnext) (hv t rfl)
      · exact hlonger.eq_of_complete_eq_none hnone
    subst hsame
    have hreads := (reads_iff hnextpath).mpr ⟨τ, hlater, hreduces⟩
    exact ⟨_, .refl, ⟨inside, rfl⟩, (hkeeps.cons _).reads hnextpath hreads ⟨inside, rfl⟩⟩

end Stack

end Automaton

end Sema
