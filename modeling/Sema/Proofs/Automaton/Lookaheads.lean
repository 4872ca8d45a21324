import Sema.Parsing.Recovery
import Sema.Proofs.Automaton.Runs

/-!
# Rules under different lookaheads

The lookahead decides how many rules are applied to a stack, but not which: of what two lookaheads
do to a stack, one is the start of the other (`Reduces.comparable`). A token that can be shifted
after rules that another lookahead has allowed allows these rules too (`Reduces.of_action`), so it
can also be shifted without them (`feed_of_reduces`).

For a closing mark the converse holds: it is shifted only where no rule is complete, so no other
lookahead gets past that place (`feed_mark_of_reduces`). No two marks can be shifted there, and
where one can be shifted the input is not at its end (`mark_eq_of_feed`, `not_finish_of_feed`).
-/

namespace Sema

namespace Automaton

/-! ## What the table is checked for -/

theorem mem_byLabel (la : Lookahead) : la ∈ Lookahead.byLabel := by
  cases la with
  | token kind => cases kind <;> decide
  | endOfInput => decide

theorem allows_of_action? {s s' : State} {c : Category} {la : Lookahead} {a : Action}
    (h : next? s (.phrase c) = some s') (ha : action? s' la = some a) : c.allows la = true := by
  have hall := of_all_edges (p := fun _ x s' => ofPhrase (fun c => Lookahead.byLabel.all fun la =>
    (action? s' la).isNone || c.allows la) x) (by decide +kernel) h
  have hla := List.all_eq_true.mp hall la (mem_byLabel la)
  simpa [ha] using hla

/-- Whether a state where a mark can be shifted has no complete rule and no other such mark. -/
def marksApart (s : State) : Bool :=
  Parsing.closers.all fun k => (next? s (.terminal k.terminal)).isNone ||
    (row s).complete.isNone &&
      Parsing.closers.all fun k' => k' == k || (next? s (.terminal k'.terminal)).isNone

theorem marksApart_eq_true (s : State) : marksApart s = true :=
  of_all_states (by decide +kernel)
    (fun s hs => by simp [marksApart, next?, Row.next?, hs, Row.empty]) s

theorem mem_closers (k : Closer) : k ∈ Parsing.closers := by
  cases k <;> decide

theorem complete_eq_none_of_mark {s s' : State} {k : Closer}
    (h : next? s (.terminal k.terminal) = some s') : (row s).complete = none := by
  have hall := List.all_eq_true.mp (marksApart_eq_true s) k (mem_closers k)
  simp only [h, Option.isNone_some, Bool.false_or, Bool.and_eq_true] at hall
  exact Option.isNone_iff_eq_none.mp hall.1

theorem mark_eq_of_next? {s s₁ s₂ : State} {k k' : Closer}
    (h : next? s (.terminal k.terminal) = some s₁)
    (h' : next? s (.terminal k'.terminal) = some s₂) : k' = k := by
  have hall := List.all_eq_true.mp (marksApart_eq_true s) k (mem_closers k)
  simp only [h, Option.isNone_some, Bool.false_or, Bool.and_eq_true] at hall
  have hk' := List.all_eq_true.mp hall.2 k' (mem_closers k')
  simpa [h'] using hk'

theorem next?_final (x : GrammarSymbol) : next? final x = none := by
  have hshifts : (row final).shifts = [] := by decide +kernel
  have hgotos : (row final).gotos = [] := by decide +kernel
  cases x <;> simp [next?, Row.next?, hshifts, hgotos]

namespace Stack

/-! ## Comparing lookaheads -/

/-- Of what two lookaheads do to a stack, one is the start of the other. -/
theorem Reduces.comparable {la la' : Lookahead} {σ σ₁ σ₂ : Stack} (h : Reduces la σ σ₁)
    (h' : Reduces la' σ σ₂) : Reduces la' σ₁ σ₂ ∨ Reduces la σ₂ σ₁ := by
  induction h with
  | refl => exact .inl h'
  | @step σ τ σ₁ r action reduce rest ih =>
    cases h' with
    | refl => exact .inr (.step action reduce rest)
    | @step _ τ' _ r' action' reduce' rest' =>
      have hr : some r = some r' :=
        (action?_eq_reduce action).1.symm.trans (action?_eq_reduce action').1
      cases hr
      rw [reduce] at reduce'
      cases reduce'
      exact ih rest'

theorem Reduces.eq_of_complete_eq_none {la : Lookahead} {σ σ' : Stack} (h : Reduces la σ σ')
    (hσ : (row (state σ)).complete = none) : σ' = σ := by
  cases h with
  | refl => rfl
  | step action _ _ =>
    rw [(action?_eq_reduce action).1] at hσ
    cases hσ

/-- A lookahead with which something can be done after some rules lets something be done before
them. -/
theorem Reduces.exists_action {la : Lookahead} {σ σ' : Stack} {a : Action} (h : Reduces la σ σ')
    (ha : action? (state σ') la = some a) : ∃ a', action? (state σ) la = some a' := by
  cases h with
  | refl => exact ⟨a, ha⟩
  | step action _ _ => exact ⟨_, action⟩

/-- A lookahead with which something can be done after rules allows these rules. -/
theorem Reduces.of_action {la la' : Lookahead} {σ σ' : Stack} {a : Action} (h : Reduces la σ σ')
    (ha : action? (state σ') la' = some a) : Reduces la' σ σ' := by
  induction h with
  | refl => exact .refl
  | step action reduce _ ih =>
    have hrest := ih ha
    obtain ⟨a', ha'⟩ := hrest.exists_action ha
    obtain ⟨s, hnext, rfl⟩ := reduce?_eq_some reduce
    have hallows := allows_of_action? hnext ha'
    exact .step (action?_of_complete (action?_eq_reduce action).1 hallows) reduce hrest

/-! ## Tokens -/

/-- What is shifted after rules that another lookahead has allowed is shifted without them. -/
theorem feed_of_reduces {la : Lookahead} {σ σ' τ : Stack} {t : Token} (hσ : Path σ)
    (h : Reduces la σ σ') (hfeed : feed t σ' = .ok τ) : feed t σ = .ok τ := by
  obtain ⟨σ₁, s, hreduces, hnext, rfl⟩ := (feed_eq_ok_iff (h.path hσ).1).mp hfeed
  obtain ⟨a, ha⟩ := hreduces.exists_action (action?_eq_shift_iff.mpr hnext)
  exact (feed_eq_ok_iff hσ).mpr ⟨σ₁, s, (h.of_action ha).trans hreduces, hnext, rfl⟩

/-- Where the input ends well after rules that another lookahead has allowed, it does so without
them. -/
theorem finish_of_reduces {la : Lookahead} {σ σ' : Stack} {tree : Tree} (hσ : Path σ)
    (h : Reduces la σ σ') (hfinish : finish σ' = .ok tree) : finish σ = .ok tree := by
  have hreduces := (finish_eq_ok_iff (h.path hσ).1).mp hfinish
  obtain ⟨a, ha⟩ := hreduces.exists_action (action?_eq_accept_iff.mpr rfl)
  exact (finish_eq_ok_iff hσ).mpr ((h.of_action ha).trans hreduces)

/-! ## Closing marks -/

/-- A mark that can be shifted can also be shifted after rules that another lookahead allows. -/
theorem feed_mark_of_reduces {la : Lookahead} {σ σ' τ : Stack} {k : Closer} {place : Span}
    (hσ : Path σ) (h : Reduces la σ σ') (hfeed : feed (k.token place) σ = .ok τ) :
    feed (k.token place) σ' = .ok τ := by
  obtain ⟨σ₁, s, hreduces, hnext, rfl⟩ := (feed_eq_ok_iff hσ).mp hfeed
  apply (feed_eq_ok_iff (h.path hσ).1).mpr
  rcases h.comparable hreduces with hrest | hrest
  · exact ⟨σ₁, s, hrest, hnext, rfl⟩
  · obtain rfl := hrest.eq_of_complete_eq_none (complete_eq_none_of_mark hnext)
    exact ⟨σ', s, .refl, hnext, rfl⟩

theorem feed_mark_iff {la : Lookahead} {σ σ' τ : Stack} {k : Closer} {place : Span}
    (hσ : Path σ) (h : Reduces la σ σ') :
    feed (k.token place) σ' = .ok τ ↔ feed (k.token place) σ = .ok τ :=
  ⟨feed_of_reduces hσ h, feed_mark_of_reduces hσ h⟩

/-- No two marks can be shifted. -/
theorem mark_eq_of_feed {σ τ τ' : Stack} {k k' : Closer} {place place' : Span} (hσ : Path σ)
    (h : feed (k.token place) σ = .ok τ) (h' : feed (k'.token place') σ = .ok τ') : k' = k := by
  obtain ⟨σ₁, s, hreduces, hnext, rfl⟩ := (feed_eq_ok_iff hσ).mp h
  obtain ⟨σ₂, s', hreduces', hnext', rfl⟩ := (feed_eq_ok_iff hσ).mp h'
  have hsame : σ₂ = σ₁ := by
    rcases hreduces.comparable hreduces' with hrest | hrest
    · exact hrest.eq_of_complete_eq_none (complete_eq_none_of_mark hnext)
    · exact (hrest.eq_of_complete_eq_none (complete_eq_none_of_mark hnext')).symm
  rw [hsame] at hnext'
  exact mark_eq_of_next? hnext hnext'

/-- Where a mark can be shifted, the input does not end well. -/
theorem not_finish_of_feed {σ τ : Stack} {k : Closer} {place : Span} {tree : Tree} (hσ : Path σ)
    (h : feed (k.token place) σ = .ok τ) : finish σ ≠ .ok tree := by
  intro hfinish
  obtain ⟨σ₁, s, hreduces, hnext, rfl⟩ := (feed_eq_ok_iff hσ).mp h
  have hend := (finish_eq_ok_iff hσ).mp hfinish
  have hsame : σ₁ = [⟨final, tree⟩] := by
    rcases hreduces.comparable hend with hrest | hrest
    · exact (hrest.eq_of_complete_eq_none (complete_eq_none_of_mark hnext)).symm
    · exact hrest.eq_of_complete_eq_none complete_final
  rw [hsame] at hnext
  exact Option.some_ne_none s (hnext.symm.trans (next?_final _))

end Stack

end Automaton

end Sema
