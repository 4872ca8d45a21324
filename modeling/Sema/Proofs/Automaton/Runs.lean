import Sema.Proofs.Automaton.Stack

/-!
# Runs of the automaton

What shifting a token (`feed_eq_ok_iff`) and the end of the input (`finish_eq_ok_iff`) do to a path,
and that the automaton reads every derivation tree: where a phrase can be passed, its leaves lead to
its tree (`reads_tree`), whatever comes next, as long as it may follow the phrase.
-/

namespace Sema

namespace Automaton

namespace Stack

/-! ## Tokens -/

theorem settled_of_shift {σ : Stack} {kind : Terminal} {s : State}
    (h : next? (state σ) (.terminal kind) = some s) : Settled (.token kind) σ := by
  intro r action
  rw [action?_eq_shift_iff.mpr h] at action
  cases action

/-- A token is shifted after the rules that it allows have been applied. -/
theorem feed_eq_ok_iff {t : Token} {σ σ' : Stack} (hσ : Path σ) :
    feed t σ = .ok σ' ↔
      ∃ σ₁ s, Reduces (.token t.kind) σ σ₁ ∧ next? (state σ₁) (.terminal t.kind) = some s ∧
        σ' = ⟨s, .leaf t⟩ :: σ₁ := by
  constructor
  · intro h
    unfold feed at h
    dsimp only at h
    split at h
    · next s action =>
      cases h
      exact ⟨_, s, reduces_settle _ σ, action?_eq_shift_iff.mp action, rfl⟩
    · cases h
  · rintro ⟨σ₁, s, hreduces, hnext, rfl⟩
    have hsettle := settle_eq hσ hreduces (settled_of_shift hnext)
    simp only [feed, hsettle, action?_eq_shift_iff.mpr hnext]

theorem path_of_feed_ok {t : Token} {σ σ' : Stack} (hσ : Path σ) (h : feed t σ = .ok σ') :
    Path σ' ∧ leaves σ' = leaves σ ++ [t] := by
  obtain ⟨σ₁, s, hreduces, hnext, rfl⟩ := (feed_eq_ok_iff hσ).mp h
  obtain ⟨hpath, hleaves⟩ := hreduces.path hσ
  refine ⟨.cons hpath trivial hnext, ?_⟩
  rw [leaves_cons, hleaves]
  rfl

theorem path_of_feed_error {t : Token} {σ σ' : Stack} (hσ : Path σ) (h : feed t σ = .error σ') :
    Path σ' ∧ leaves σ' = leaves σ ∧ σ' = settle (.token t.kind) σ := by
  have hsettle : σ' = settle (.token t.kind) σ := by
    unfold feed at h
    dsimp only at h
    split at h
    · cases h
    · cases h
      rfl
  obtain ⟨hpath, hleaves⟩ := (reduces_settle (.token t.kind) σ).path hσ
  rw [hsettle]
  exact ⟨hpath, hleaves, rfl⟩

/-! ## The end of the input -/

theorem action?_eq_accept_iff {s : State} : action? s .endOfInput = some .accept ↔ s = final := by
  constructor
  · intro h
    unfold action? at h
    split at h
    · next hs => exact hs.1
    · simp [Row.action?] at h
  · rintro rfl
    rfl

/-- The input ends well where a program has been read and nothing else. -/
theorem finish_eq_ok_iff {σ : Stack} {tree : Tree} (hσ : Path σ) :
    finish σ = .ok tree ↔ Reduces .endOfInput σ [⟨final, tree⟩] := by
  constructor
  · intro h
    unfold finish at h
    dsimp only at h
    split at h
    · next frame action hsettled =>
      cases h
      have hreduces := reduces_settle .endOfInput σ
      rw [hsettled] at hreduces action
      have hstate : frame.state = final := action?_eq_accept_iff.mp action
      rw [← hstate]
      exact hreduces
    · cases h
  · intro h
    have hsettled : Settled .endOfInput [⟨final, tree⟩] := by
      intro r action
      have hfinal : action? final .endOfInput = some .accept := action?_eq_accept_iff.mpr rfl
      rw [show action? final .endOfInput = some (.reduce r) from action] at hfinal
      cases hfinal
    have hsettle := settle_eq hσ h hsettled
    unfold finish
    rw [hsettle]
    rfl

theorem path_of_finish_ok {σ : Stack} {tree : Tree} (hσ : Path σ) (h : finish σ = .ok tree) :
    tree.WellFormed ∧ tree.symbol = .phrase .program ∧ tree.leaves = leaves σ := by
  obtain ⟨hpath, hleaves⟩ := ((finish_eq_ok_iff hσ).mp h).path hσ
  rw [leaves_cons, leaves_nil, List.nil_append] at hleaves
  cases hpath with
  | cons _ htree hnext => exact ⟨htree, ((initial_of_next? hnext).2 rfl).2, hleaves⟩

theorem path_of_finish_error {σ σ' : Stack} (hσ : Path σ) (h : finish σ = .error σ') :
    Path σ' ∧ leaves σ' = leaves σ ∧ σ' = settle .endOfInput σ := by
  have hsettle : σ' = settle .endOfInput σ := by
    unfold finish at h
    dsimp only at h
    split at h
    · cases h
    · cases h
      rfl
  obtain ⟨hpath, hleaves⟩ := (reduces_settle .endOfInput σ).path hσ
  rw [hsettle]
  exact ⟨hpath, hleaves, rfl⟩

/-! ## Reading trees -/

/-- What the automaton looks at before the tokens `w`, with `la` after them. -/
def peek (la : Lookahead) : List Token → Lookahead
  | [] => la
  | t :: _ => .token t.kind

/-- The automaton reads tokens, one after the other, and then applies rules with `la`. -/
inductive Reads (la : Lookahead) : Stack → List Token → Stack → Prop
  | done {σ σ' : Stack} (reduces : Reduces la σ σ') : Reads la σ [] σ'
  | shift {σ σ₁ σ' : Stack} {t : Token} {w : List Token} {s : State}
      (reduces : Reduces (.token t.kind) σ σ₁)
      (next : next? (state σ₁) (.terminal t.kind) = some s)
      (rest : Reads la (⟨s, .leaf t⟩ :: σ₁) w σ') : Reads la σ (t :: w) σ'

theorem Reads.after_reduces {la : Lookahead} {σ₁ σ₂ σ₃ : Stack} {w : List Token}
    (h : Reduces (peek la w) σ₁ σ₂) (h' : Reads la σ₂ w σ₃) : Reads la σ₁ w σ₃ := by
  cases h' with
  | done reduces => exact .done (h.trans reduces)
  | shift reduces next rest => exact .shift (h.trans reduces) next rest

theorem Reads.then_reduces {la : Lookahead} {σ₁ σ₂ σ₃ : Stack} {w : List Token}
    (h : Reads la σ₁ w σ₂) (h' : Reduces la σ₂ σ₃) : Reads la σ₁ w σ₃ := by
  induction h with
  | done reduces => exact .done (reduces.trans h')
  | shift reduces next _ ih => exact .shift reduces next (ih h')

theorem Reads.append {la : Lookahead} {σ₁ σ₂ σ₃ : Stack} {w₁ w₂ : List Token}
    (h : Reads (peek la w₂) σ₁ w₁ σ₂) (h' : Reads la σ₂ w₂ σ₃) : Reads la σ₁ (w₁ ++ w₂) σ₃ := by
  induction h with
  | done reduces => exact .after_reduces reduces h'
  | shift reduces next _ ih => exact .shift reduces next (ih h')

/-- Where the parts of a rule have been read and a phrase of its category can be passed, the rule is
applied. -/
theorem reduces_node {la : Lookahead} {r : Rule} {frames σ : Stack} {s : State}
    (hparts : (trees frames).map Tree.symbol = r.body)
    (hcomplete : (row (state (frames ++ σ))).complete = some r)
    (hla : r.category.allows la = true) (hnext : next? (state σ) (.phrase r.category) = some s) :
    Reduces la (frames ++ σ) (⟨s, .node r (trees frames)⟩ :: σ) := by
  have hlen : r.body.length = frames.length := by
    rw [← hparts]
    simp [trees]
  have hreduce : reduce? r (frames ++ σ) = some (⟨s, .node r (trees frames)⟩ :: σ) := by
    simp only [reduce?, hlen, List.take_left, List.drop_left, hnext, Option.map_some, trees]
  exact .step (action?_of_complete hcomplete hla) hreduce .refl

theorem allows_peek {c : Category} {t : Tree} {ts : List Tree} {la : Lookahead}
    (hts : Tree.AllWellFormed ts) (hfollowed : Rule.followed c ((t :: ts).map Tree.symbol) = true)
    (hla : c.allows la = true) {d : Category} (hd : t.symbol = .phrase d) :
    d.allows (peek la (Tree.leavesAll ts)) = true := by
  rw [List.map_cons, hd] at hfollowed
  obtain ⟨hnil, hcons⟩ := Tree.leavesAll_start hts
  cases hl : Tree.leavesAll ts with
  | nil => exact Rule.allows_of_isEmptiable hfollowed (hnil hl) hla
  | cons token rest => exact Rule.allows_of_mem_firstAll hfollowed (hcons token rest hl)

mutual

/-- The automaton reads a tree where the symbol of the tree can be passed, before any lookahead that
may follow it. -/
theorem reads_tree : ∀ {t : Tree}, t.WellFormed → ∀ (la : Lookahead) (σ : Stack) (s : State),
    next? (state σ) t.symbol = some s → (∀ c, t.symbol = .phrase c → c.allows la = true) →
    Reads la σ t.leaves (⟨s, t⟩ :: σ)
  | .leaf token, _ => fun _ _ _ hnext _ => .shift .refl hnext (.done .refl)
  | .node r children, ht => by
    intro la σ s hnext hla
    obtain ⟨hbody, hchildren⟩ := ht
    -- where the phrase can be passed, its parts can be, up to where the rule is complete
    obtain ⟨e, hwalk, hcomplete⟩ := exists_walk_body hnext
    have hfollowed := r.followed_body
    rw [← hbody] at hwalk hfollowed
    obtain ⟨frames, htrees, rfl, hreads⟩ :=
      reads_trees hchildren la σ e r.category hwalk hfollowed (hla _ rfl)
    have hreduces : Reduces la (frames ++ σ) (⟨s, .node r children⟩ :: σ) := by
      rw [← htrees] at hbody ⊢
      exact reduces_node hbody hcomplete (hla _ rfl) hnext
    exact hreads.then_reduces hreduces

theorem reads_trees : ∀ {ts : List Tree}, Tree.AllWellFormed ts →
    ∀ (la : Lookahead) (σ : Stack) (e : State) (c : Category),
    walk (state σ) (ts.map Tree.symbol) = some e →
    Rule.followed c (ts.map Tree.symbol) = true → c.allows la = true →
    ∃ frames : Stack, trees frames = ts ∧ state (frames ++ σ) = e ∧
      Reads la σ (Tree.leavesAll ts) (frames ++ σ)
  | [], _ => fun _ _ _ _ hwalk _ _ => ⟨[], rfl, Option.some.inj hwalk, .done .refl⟩
  | t :: ts, hts => by
    intro la σ e c hwalk hfollowed hla
    obtain ⟨s, hnext, hwalk⟩ := Option.bind_eq_some_iff.mp hwalk
    have hfirst := reads_tree hts.1 (peek la (Tree.leavesAll ts)) σ s hnext fun d hd =>
      allows_peek hts.2 hfollowed hla hd
    have hrest := Rule.followed_of_append [t.symbol] hfollowed
    obtain ⟨frames, htrees, hstate, hreads⟩ :=
      reads_trees hts.2 la (⟨s, t⟩ :: σ) e c hwalk hrest hla
    refine ⟨frames ++ [⟨s, t⟩], ?_, ?_, ?_⟩
    · rw [trees_append, htrees]
      rfl
    · rw [List.append_assoc]
      exact hstate
    · rw [List.append_assoc]
      exact hfirst.append hreads

end

end Stack

end Automaton

end Sema