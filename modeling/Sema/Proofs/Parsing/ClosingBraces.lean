import Sema.Proofs.Parsing.OpenBlocks
import Sema.Proofs.Parsing.Recovery
import Sema.Proofs.Parsing.StraySemicolons

/-!
# Closing braces

What a recovering parse does with a closing brace. Where a block is open, the brace fits right after
the opening one and after the statements (`exists_feed_lbrace`, `exists_feed_stmts`). So it is
shifted as it is, after an inserted mark, or after frames have been given up, none of which belongs to
the complete statements of the innermost block (`take_rbrace`). The brace is dropped only where no
block is open.
-/

namespace Sema

namespace Automaton

namespace Stack

/-! ## Stacks on which a closing brace does not fit -/

theorem rbrace_not_mem_below {frame : Frame} {σ : Stack} (h : Path (frame :: σ)) :
    .terminal .rbrace ∉ symbols σ := by
  induction σ generalizing frame with
  | nil => simp [symbols]
  | cons brace σ ih =>
    cases h with
    | cons below _ next =>
      intro hmem
      rcases List.mem_cons.mp hmem with hbrace | hmem
      · cases below with
        | cons _ _ hnext =>
          rw [← show GrammarSymbol.terminal .rbrace = brace.tree.symbol from hbrace] at hnext
          have hedge := mem_edges next
          rw [show state (brace :: σ) = brace.state from rfl, (past_of_rbrace hnext).2] at hedge
          cases hedge
      · exact ih below hmem

/-- A closing brace makes a block before the next comes, so there is none on a stack that has settled
with it. -/
theorem rbrace_not_mem_settle {σ : Stack} (hσ : Path σ) :
    .terminal .rbrace ∉ symbols (settle (.token .rbrace) σ) := by
  have hpath := ((reduces_settle (.token .rbrace) σ).path hσ).1
  have hsettled := action?_settle_ne_reduce hσ (.token .rbrace)
  generalize settle (.token .rbrace) σ = τ at hpath hsettled ⊢
  cases τ with
  | nil => simp [symbols]
  | cons frame τ =>
    intro hmem
    rcases List.mem_cons.mp hmem with hbrace | hmem
    · cases hpath with
      | cons _ _ next =>
        rw [← show GrammarSymbol.terminal .rbrace = frame.tree.symbol from hbrace] at next
        obtain ⟨r, hr, hcomplete⟩ := Automaton.complete_of_rbrace next
        have hallows : r.category.allows (.token .rbrace) = true := by
          rcases List.mem_cons.mp hr with rfl | hr
          · rfl
          · obtain rfl := List.mem_singleton.mp hr
            rfl
        exact hsettled r (action?_of_complete hcomplete hallows)
    · exact rbrace_not_mem_below hpath hmem

theorem openBlock_of_suffix {σ τ ρ : Stack} (hσ : .terminal .rbrace ∉ symbols σ)
    (hopen : openBlock σ = some ρ) (hτ : τ <:+ σ) (hρ : ρ <:+ τ) : openBlock τ = some ρ := by
  obtain ⟨frames, brace, below, hframes, hmatch, hbelow, hbrace⟩ := openFrom_eq_some hopen
  obtain ⟨upper, rfl⟩ := hτ
  obtain ⟨lower, rfl⟩ := hρ
  rw [← List.append_assoc] at hframes
  rw [← List.append_cancel_right hframes, symbols, List.map_append] at hmatch
  have hupper : .terminal .rbrace ∉ symbols upper := by
    rw [symbols, List.map_append] at hσ
    exact fun hmem => hσ (List.mem_append_left _ hmem)
  have hlower := openFrom_append (matchBraces_of_append hupper hmatch) ρ
  rw [openBlock, hlower, hbelow]
  exact openBlock_lbrace hbrace

/-! ## Stacks on which it fits -/

theorem exists_feed_lbrace {brace : Frame} {below : Stack} {t : Token}
    (h : Path (brace :: below)) (hbrace : brace.tree.symbol = .terminal .lbrace)
    (ht : t.kind = .rbrace) : ∃ fed, feed t (brace :: below) = .ok fed := by
  obtain ⟨e, -, -, he, -⟩ := h.exists_of_lbrace hbrace
  exact ⟨_, (feed_eq_ok_iff h).mpr ⟨_, e, .refl, ht ▸ he, rfl⟩⟩

theorem exists_feed_stmts {frame brace : Frame} {below : Stack} {t : Token}
    (h : Path (frame :: brace :: below)) (hframe : frame.tree.symbol = .phrase .stmts)
    (hbrace : brace.tree.symbol = .terminal .lbrace) (ht : t.kind = .rbrace) :
    ∃ fed, feed t (frame :: brace :: below) = .ok fed := by
  cases id h with
  | cons hbelow _ hnext =>
    obtain ⟨-, s₁, e₁, -, hs₁, -, he₁⟩ := hbelow.exists_of_lbrace hbrace
    rw [hframe] at hnext
    obtain rfl := Option.some.inj (hs₁.symm.trans hnext)
    exact ⟨_, (feed_eq_ok_iff h).mpr ⟨_, e₁, .refl, ht ▸ he₁, rfl⟩⟩

end Stack

end Automaton

namespace Parsing

open Automaton
open Automaton.Stack (Keeps openBlock)

theorem unwind?_of_suffix {t : Token} {σ τ fed : Stack} (hτ : τ <:+ σ) (hne : τ ≠ σ)
    (hfeed : Stack.feed t τ = .ok fed) :
    ∃ n fed', unwind? t σ = some (n, fed') ∧ τ <:+ σ.drop n := by
  induction σ with
  | nil => exact absurd (List.suffix_nil.mp hτ) hne
  | cons frame σ ih =>
    rcases List.suffix_cons_iff.mp hτ with rfl | hτ
    · exact absurd rfl hne
    cases hearly : Stack.feed t σ with
    | ok fed' => exact ⟨1, fed', by simp only [unwind?, hearly], hτ⟩
    | error settled =>
      have hlower : τ ≠ σ := by
        rintro rfl
        rw [hfeed] at hearly
        cases hearly
      obtain ⟨n, fed', hunwind, hsuffix⟩ := ih hτ hlower
      refine ⟨n + 1, fed', ?_, hsuffix⟩
      simp only [unwind?, hearly, hunwind, Option.map_some]

/-- The stack `σ'` has the closing brace `t` of the block that starts with `ρ` on it, right after the
statements of the block, and these go on with those that the stack `σ` keeps. -/
def ClosesBlock (t : Token) (ρ σ σ' : Stack) : Prop :=
  ∃ s body, σ' = ⟨s, .leaf t⟩ :: (body ++ ρ) ∧
    (body = [] ∨ ∃ frame, body = [frame] ∧ frame.tree.symbol = .phrase .stmts) ∧
    ∀ T, Keeps T ρ σ → Keeps T ρ (body ++ ρ)

section

variable {t : Token} {σ σ' ρ : Stack} (hσ : Stack.Path σ) (ht : t.kind = .rbrace)
  (hopen : openBlock σ = some ρ)

include hσ ht hopen

theorem closesBlock_of_feed (h : σ.feed t = .ok σ') :
    ClosesBlock t ρ (σ.settle (.token .rbrace)) σ' := by
  obtain ⟨s, body, ρ', rfl, hsettle, hopen', hbody⟩ := Stack.feed_rbrace hσ ht h
  obtain rfl := Option.some.inj (hopen.symm.trans hopen')
  exact ⟨s, body, rfl, hbody, fun T hT => hsettle ▸ hT⟩

theorem closesBlock_of_insertion {mark : Closer} (h : insertion? t σ = some (mark, σ')) :
    mark ∈ insertable ∧ ClosesBlock t ρ σ σ' := by
  obtain ⟨hmem, marked, hmarked, hfed⟩ := feed_of_insertion? h
  refine ⟨hmem, ?_⟩
  have hbrace : matchBrace 0 (.terminal (mark.token t.span).kind) = some 0 := by
    cases mark with
    | brace => simp [insertable] at hmem
    | semicolon => rfl
    | paren => rfl
  have hpath := (Stack.path_of_feed_ok hσ hmarked).1
  have hmopen : openBlock marked = some ρ := by
    rw [Stack.openBlock_feed hσ hmarked hbrace, hopen]
  obtain ⟨s, body, rfl, hbody, hkeeps⟩ := closesBlock_of_feed hpath ht hmopen hfed
  refine ⟨s, body, rfl, hbody, fun T hT => hkeeps T (.settle ?_ hpath hmopen _)⟩
  obtain ⟨σ₁, s₁, hreduces, hnext, rfl⟩ := (Stack.feed_eq_ok_iff hσ).mp hmarked
  have hreads : Stack.Reads .endOfInput σ [mark.token t.span] (⟨s₁, .leaf _⟩ :: σ₁) :=
    .shift hreduces hnext (.done .refl)
  exact hT.reads hσ hreads (Stack.suffix_of_openBlock hmopen)

theorem exists_closesBlock_of_unwind (hsettled : .terminal .rbrace ∉ Stack.symbols σ)
    (h : ∀ fed, σ.feed t ≠ .ok fed) :
    ∃ n fed, unwind? t σ = some (n, fed) ∧ ClosesBlock t ρ σ fed := by
  obtain ⟨-, brace, below, -, -, hρ, hbrace⟩ := Stack.openFrom_eq_some hopen
  have hsuffix := Stack.suffix_of_openBlock hopen
  subst hρ
  obtain ⟨early, hearly⟩ := Stack.exists_feed_lbrace (hσ.of_suffix hsuffix) hbrace ht
  have hne : brace :: below ≠ σ := by
    rintro rfl
    exact h early hearly
  obtain ⟨n, fed, hunwind, hlower⟩ := unwind?_of_suffix hsuffix hne hearly
  have hpath := hσ.drop n
  have hdopen : openBlock (σ.drop n) = some (brace :: below) :=
    Stack.openBlock_of_suffix hsettled hopen (List.drop_suffix n σ) hlower
  obtain ⟨s, body, rfl, hbody, hkeeps⟩ :=
    closesBlock_of_feed hpath ht hdopen (feed_of_unwind? hunwind)
  refine ⟨n, _, hunwind, s, body, rfl, hbody, fun T hT => hkeeps T (.settle ?_ hpath hdopen _)⟩
  obtain ⟨upper, frame, hupper, hframe, hprefix⟩ := hT
  have hstmts : frame :: brace :: below <:+ σ := ⟨upper, hupper.symm⟩
  obtain ⟨late, hlate⟩ := Stack.exists_feed_stmts (hσ.of_suffix hstmts) hframe hbrace ht
  have hne' : frame :: brace :: below ≠ σ := by
    rintro rfl
    exact h late hlate
  obtain ⟨n', fed', hunwind', hkept⟩ := unwind?_of_suffix hstmts hne' hlate
  rw [hunwind] at hunwind'
  cases hunwind'
  obtain ⟨upper', hupper'⟩ := hkept
  exact ⟨upper', frame, hupper'.symm, hframe, hprefix⟩

/-- Where a block is open, a closing brace closes the innermost one, whatever it takes. -/
theorem take_rbrace :
    ((take t σ).1 = [] ∨ (∃ mark ∈ insertable, (take t σ).1 = [.inserted mark t]) ∨
        ∃ depth expected, (take t σ).1 = [.unwound depth t expected]) ∧
      ClosesBlock t ρ (σ.settle (.token .rbrace)) (take t σ).2 := by
  cases hfeed : σ.feed t with
  | ok next =>
    rw [take_of_feed_ok hfeed]
    exact ⟨.inl rfl, closesBlock_of_feed hσ ht hopen hfeed⟩
  | error settled =>
    obtain ⟨hpath, -, hsettle⟩ := Stack.path_of_feed_error hσ hfeed
    rw [ht] at hsettle
    have hreduces : Stack.Reduces (.token .rbrace) σ settled := hsettle ▸ Stack.reduces_settle _ σ
    have hsopen : openBlock settled = some ρ := by
      rw [Stack.openBlock_reduces hσ hreduces, hopen]
    rw [take_of_feed_error hfeed, ← hsettle, repair]
    cases hinsertion : insertion? t settled with
    | some inserted =>
      obtain ⟨mark, fed⟩ := inserted
      obtain ⟨hmem, hcloses⟩ := closesBlock_of_insertion hpath ht hsopen hinsertion
      exact ⟨.inr (.inl ⟨mark, hmem, rfl⟩), hcloses⟩
    | none =>
      have hno : .terminal .rbrace ∉ Stack.symbols settled :=
        hsettle ▸ Stack.rbrace_not_mem_settle hσ
      have hrefused : ∀ fed, settled.feed t ≠ .ok fed := by
        intro fed hok
        rw [Stack.feed_of_reduces hσ hreduces hok] at hfeed
        cases hfeed
      obtain ⟨n, fed, hunwind, hcloses⟩ :=
        exists_closesBlock_of_unwind hpath ht hsopen hno hrefused
      have hboundary : isBoundary t = true := by simp [isBoundary, ht]
      simp only [hboundary, if_true, hunwind]
      exact ⟨.inr (.inr ⟨n, settled.expected, rfl⟩), hcloses⟩

end

/-! ## The recovering parse -/

theorem Holds.takeAll {seen : List Token} {σ : Stack} (h : Holds seen σ) (w : List Token) :
    Holds (seen ++ w) (takeAll σ w) := by
  induction w generalizing seen σ with
  | nil => simpa [Parsing.takeAll] using h
  | cons t w ih => simpa [Parsing.takeAll] using ih (h.take t)

/-- When a closing brace is taken, the statements that are complete in the text of the innermost open
block are still the first on the stack. -/
theorem keeps_settle {inside ρ : Stack} {u v : List Token} {T : Tree}
    (hσ : Stack.Path (inside ++ ρ)) (hopen : openBlock (inside ++ ρ) = some ρ)
    (hleaves : Stack.leaves inside = u ++ v) (hT : T.Derives (.phrase .stmts) u)
    (hv : ∀ t ∈ v.head?, t.kind ≠ .elseKw) :
    Keeps T ρ (Stack.settle (.token .rbrace) (inside ++ ρ)) := by
  obtain ⟨-, brace, below, -, -, hρ, hbrace⟩ := Stack.openFrom_eq_some hopen
  obtain ⟨σ', hreduces, hsuffix, hkeeps⟩ := Stack.exists_keeps hσ hρ hbrace hleaves hT hv
  have hpath := (hreduces.path hσ).1
  have hopen' : openBlock σ' = some ρ := by rw [Stack.openBlock_reduces hσ hreduces, hopen]
  have hsettle : Stack.settle (.token .rbrace) (inside ++ ρ) = σ'.settle (.token .rbrace) :=
    Stack.settle_eq hσ (hreduces.trans (Stack.reduces_settle _ σ')) (Stack.settled_settle hpath)
  rw [hsettle]
  exact hkeeps.settle hpath hopen' _

theorem ClosesBlock.openBlock_eq {t : Token} {s : State} {body ρ : Stack} (ht : t.kind = .rbrace)
    (hρ : openBlock ρ = some ρ)
    (hbody : body = [] ∨ ∃ frame, body = [frame] ∧ frame.tree.symbol = .phrase .stmts) :
    openBlock (⟨s, .leaf t⟩ :: (body ++ ρ)) = openBlock ρ.tail := by
  obtain ⟨-, brace, below, -, -, rfl, hbrace⟩ := Stack.openFrom_eq_some hρ
  have hmatch : matchBraces 0 (Stack.symbols (⟨s, .leaf t⟩ :: (body ++ [brace]))) = some 0 := by
    rcases hbody with rfl | ⟨frame, rfl, hframe⟩
    · simp [Stack.symbols, matchBraces, matchBrace, ht, hbrace]
    · simp [Stack.symbols, matchBraces, matchBrace, ht, hbrace, hframe]
  have happend := Stack.openFrom_append hmatch below
  rw [List.cons_append, List.append_assoc] at happend
  exact happend

theorem feed_of_mem_dropped {t : Token} {σ : Stack} {expected : List Lookahead}
    (h : .dropped t expected ∈ (take t σ).1) : σ.feed t = .error (take t σ).2 := by
  cases hfeed : σ.feed t with
  | ok fed =>
    rw [take_of_feed_ok hfeed] at h
    cases h
  | error settled =>
    rw [take_of_feed_error hfeed, List.mem_singleton] at h
    rw [take_of_feed_error hfeed, (repair_eq_dropped h.symm).2]

/-- A closing brace is never thrown away while a block is open. For the stack that a recovering parse
has when it comes to a closing brace: where a block is open, the brace is shifted, as it is, after an
inserted mark or after frames have been given up, and closes the innermost block. The statements that
were complete in the text of that block, those that do not go on with `else`, are its first statements
then. The brace is dropped only where no block is open, and the stack then stays as the error left
it. -/
theorem rbrace_closes_open_block {source : List Char} {before after : List Piece} {t : Token}
    (h : pieces source = before ++ .token t :: after) (ht : t.kind = .rbrace) :
    let σ := takeAll [] (tokensOf before)
    let next := recoverFrom t.span (take t σ).2 after
    (∃ done, recover (pieces source) = ⟨done ++ ((take t σ).1 ++ next.repairs), next.tree⟩) ∧
      (∀ ρ, σ.openBlock = some ρ →
        ((take t σ).1 = [] ∨ (∃ mark ∈ insertable, (take t σ).1 = [.inserted mark t]) ∨
          ∃ depth expected, (take t σ).1 = [.unwound depth t expected]) ∧
        ∃ inside s body, σ = inside ++ ρ ∧ (take t σ).2 = ⟨s, .leaf t⟩ :: (body ++ ρ) ∧
          (body = [] ∨ ∃ frame, body = [frame] ∧ frame.tree.symbol = .phrase .stmts) ∧
          (take t σ).2.openBlock = Stack.openBlock ρ.tail ∧
          ∀ (u v : List Token) (T : Tree), Stack.leaves inside = u ++ v →
            T.Derives (.phrase .stmts) u →
            (∀ k ∈ v.head?, k.kind ≠ .elseKw) →
            ∃ frame, body = [frame] ∧ T.statements <+: frame.tree.statements) ∧
      ∀ expected, .dropped t expected ∈ (take t σ).1 →
        σ.openBlock = none ∧ σ.feed t = .error (take t σ).2 := by
  intro σ next
  have hσ : Stack.Path σ := (Holds.nil.takeAll (tokensOf before)).path
  refine ⟨?_, fun ρ hopen => ?_, fun expected hdropped => ⟨?_, feed_of_mem_dropped hdropped⟩⟩
  · obtain ⟨done, hdone⟩ := exists_recoverFrom_append ⟨.start, .start⟩ [] before
    exact ⟨done, by rw [h, recover, hdone, recoverFrom_token]⟩
  · obtain ⟨hrepairs, s, body, hnext, hbody, hkeeps⟩ := take_rbrace hσ ht hopen
    obtain ⟨inside, brace, below, hinside, -, hρ, hbrace⟩ := Stack.openFrom_eq_some hopen
    refine ⟨hrepairs, inside, s, body, hinside, hnext, hbody, ?_, fun u v T hleaves hT hv => ?_⟩
    · rw [hnext]
      exact ClosesBlock.openBlock_eq ht (hρ ▸ Stack.openBlock_lbrace hbrace) hbody
    · rw [hinside] at hσ hopen hkeeps
      obtain ⟨upper, frame, hupper, -, hprefix⟩ := hkeeps T (keeps_settle hσ hopen hleaves hT hv)
      have hlength := congrArg List.length hupper
      simp only [List.length_append, List.length_cons] at hlength
      rcases hbody with rfl | ⟨only, rfl, -⟩
      · rw [List.length_nil] at hlength
        omega
      · rw [List.length_singleton] at hlength
        obtain rfl : upper = [] := List.eq_nil_of_length_eq_zero (by omega)
        exact ⟨only, rfl, (List.cons.inj hupper).1 ▸ hprefix⟩
  · cases hopen : σ.openBlock with
    | none => rfl
    | some ρ =>
      rcases (take_rbrace hσ ht hopen).1 with hrepairs | ⟨mark, -, hrepairs⟩ | ⟨_, _, hrepairs⟩ <;>
        simp [hrepairs] at hdropped

/-- A function with a group that is still open when its closing brace comes. -/
def openGroup : List Char := "f()\x7bx=1;y=(2\x7d".toList

/-- In `f(){x=1;y=(2}` frames are given up for the brace, down to the statement `x=1;`. -/
theorem openGroup_closed_by_rbrace :
    ∃ before t ρ s frame, pieces openGroup = before ++ [.token t] ∧ t.kind = .rbrace ∧
      (takeAll [] (tokensOf before)).openBlock = some ρ ∧
      (take t (takeAll [] (tokensOf before))).2 = ⟨s, .leaf t⟩ :: frame :: ρ ∧
      ∃ depth expected, (take t (takeAll [] (tokensOf before))).1 =
        [.unwound depth t expected] := by
  have hpieces : pieces openGroup = (pieces openGroup).take 12 ++
      [.token (tokenAt 12 .rbrace "\x7d")] := by decide +kernel
  obtain ⟨-, hcloses, -⟩ := rbrace_closes_open_block hpieces rfl
  have hopen : (openBlock (takeAll [] (tokensOf ((pieces openGroup).take 12)))).isSome = true := by
    decide +kernel
  obtain ⟨ρ, hρ⟩ := Option.isSome_iff_exists.mp hopen
  obtain ⟨hrepairs, inside, s, body, -, hnext, hbody, -, -⟩ := hcloses ρ hρ
  have hunwound : ((take (tokenAt 12 .rbrace "\x7d")
      (takeAll [] (tokensOf ((pieces openGroup).take 12)))).1.any
        fun | .unwound .. => true | _ => false) = true := by decide +kernel
  have hstmts : ((take (tokenAt 12 .rbrace "\x7d")
      (takeAll [] (tokensOf ((pieces openGroup).take 12)))).2.map (·.tree.symbol))[1]? =
        some (.phrase .stmts) := by decide +kernel
  rcases hbody with rfl | ⟨frame, rfl, -⟩
  · obtain ⟨-, brace, below, -, -, rfl, hbrace⟩ := Stack.openFrom_eq_some hρ
    simp [hnext, hbrace] at hstmts
  · refine ⟨_, _, ρ, s, frame, hpieces, rfl, hρ, hnext, ?_⟩
    rcases hrepairs with hnone | ⟨mark, -, hinserted⟩ | hdone
    · simp [hnone] at hunwound
    · simp [hinserted] at hunwound
    · exact hdone

end Parsing

end Sema
