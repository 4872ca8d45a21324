import Sema.Checking.Scope
import Sema.Proofs.Typing.Rules

/-!
# Open frames as contexts

The open frames of a scope stack as one list, innermost first (`ScopeStack.frames`), and the context
that they stand for (`ScopeStack.context`): a name resolves to a symbol just if it stands for the
symbol's variable in the context (`resolves_context_iff`), and a symbol can be declared just if the
innermost frame of the context lacks its name.
-/

namespace Sema

open Typing (Variable Context Resolves)

theorem lookup_eq_some_iff_mem {α : Type} {l : List (String × α)} {x : String} {a : α}
    (hl : (l.map Prod.fst).Nodup) : l.lookup x = some a ↔ (x, a) ∈ l := by
  induction l with
  | nil => simp
  | cons b l ih =>
    obtain ⟨y, other⟩ := b
    rw [List.map_cons, List.nodup_cons] at hl
    by_cases hx : x = y
    · subst hx
      have hnot : (x, a) ∉ l := fun hm => hl.1 (List.mem_map.mpr ⟨_, hm, rfl⟩)
      simp [hnot, eq_comm]
    · simp [hx, List.lookup_cons, ih hl.2, beq_false_of_ne hx]

namespace ScopeStack

/-! ## Frames -/

/-- The open frames, innermost first; the global one is the last. -/
def frames (s : ScopeStack) : List Scope :=
  s.inner ++ [s.global]

theorem frames_injective {s t : ScopeStack} (h : s.frames = t.frames) : s = t := by
  obtain ⟨inner, global⟩ := s
  obtain ⟨inner', global'⟩ := t
  obtain ⟨hi, hg⟩ := List.append_inj' h rfl
  cases hi
  cases hg
  rfl

@[simp] theorem frames_push (s : ScopeStack) : s.push.frames = [] :: s.frames := rfl

theorem pop_of_tail_frames {s t : ScopeStack} (h : s.frames.tail = t.frames) : s.pop = .ok t := by
  obtain ⟨inner, global⟩ := s
  cases inner with
  | nil =>
    have hl := congrArg List.length h
    simp [frames] at hl
  | cons F rest => exact congrArg Except.ok (frames_injective h)

theorem exists_frames (s : ScopeStack) : ∃ rest, s.frames = s.innermost :: rest := by
  obtain ⟨inner, global⟩ := s
  cases inner with
  | nil => exact ⟨[], rfl⟩
  | cons F rest => exact ⟨rest ++ [global], rfl⟩

theorem declare_of_lookup_eq_none {s : ScopeStack} {rest : List Scope} {x : String}
    (hs : s.frames = s.innermost :: rest) (hl : s.innermost.lookup x = none) (symbol : Symbol) :
    ∃ t, s.declare x symbol = .ok t ∧ t.frames = ((x, symbol) :: s.innermost) :: rest := by
  unfold declare
  rw [hl]
  obtain ⟨inner, global⟩ := s
  cases inner with
  | nil =>
    refine ⟨_, rfl, ?_⟩
    rw [← (List.cons.inj hs).2]
    rfl
  | cons F inner =>
    refine ⟨_, rfl, ?_⟩
    rw [← (List.cons.inj hs).2]
    rfl

theorem declare_eq_ok_iff {s t : ScopeStack} {x : String} {symbol : Symbol} :
    s.declare x symbol = .ok t ↔
      ∃ F rest, s.frames = F :: rest ∧ F.lookup x = none ∧
        t.frames = ((x, symbol) :: F) :: rest := by
  obtain ⟨rest, hs⟩ := exists_frames s
  constructor
  · intro h
    cases hl : s.innermost.lookup x with
    | some existing =>
      rw [declare_eq_error_iff.mpr ⟨existing, hl, rfl⟩] at h
      cases h
    | none =>
      obtain ⟨t', ht', hframes⟩ := declare_of_lookup_eq_none hs hl symbol
      rw [h] at ht'
      cases ht'
      exact ⟨s.innermost, rest, hs, hl, hframes⟩
  · rintro ⟨F, rest', hs', hl, ht⟩
    rw [hs] at hs'
    cases hs'
    obtain ⟨t', ht', hframes⟩ := declare_of_lookup_eq_none hs hl symbol
    rw [ht', frames_injective (hframes.trans ht.symm)]

theorem tail_frames_declare {s t : ScopeStack} {x : String} {symbol : Symbol}
    (h : s.declare x symbol = .ok t) : t.frames.tail = s.frames.tail := by
  obtain ⟨F, rest, hs, -, ht⟩ := declare_eq_ok_iff.mp h
  rw [hs, ht, List.tail_cons, List.tail_cons]

/-! ## Contexts -/

def variableOf (binding : String × Symbol) : Variable :=
  ⟨binding.1, binding.2.type, binding.2.isConst⟩

/-- The context that the open frames stand for. -/
def context (s : ScopeStack) : Context :=
  s.frames.map (·.map variableOf)

@[simp] theorem context_push (s : ScopeStack) : s.push.context = [] :: s.context := rfl

theorem context_of_tail_frames {s t : ScopeStack} (h : s.frames.tail = t.frames) :
    ∃ F, s.context = F :: t.context := by
  obtain ⟨rest, hs⟩ := exists_frames s
  rw [hs, List.tail_cons] at h
  exact ⟨_, by rw [context, hs, List.map_cons, h, context]⟩

def Distinct (s : ScopeStack) : Prop :=
  ∀ F ∈ s.frames, (F.map Prod.fst).Nodup

theorem distinct_push {s : ScopeStack} (h : s.Distinct) : s.push.Distinct := by
  intro F hF
  rcases List.mem_cons.mp hF with rfl | hF
  · exact List.nodup_nil
  · exact h F hF

theorem lookup_eq_none_iff_lacks {F : Scope} {x : String} :
    F.lookup x = none ↔ Typing.Frame.Lacks (F.map variableOf) x := by
  rw [List.lookup_eq_none_iff]
  constructor
  · intro h v hv
    obtain ⟨b, hb, rfl⟩ := List.mem_map.mp hv
    intro hx
    have hb := h b hb
    simp [show b.1 = x from hx] at hb
  · intro h b hb
    have hb : b.1 ≠ x := h (variableOf b) (List.mem_map_of_mem hb)
    simp [hb.symm]

/-- In frames without repetitions, names resolve as they do in the context. -/
theorem resolves_context_iff {s : ScopeStack} {x : String} {v : Variable} (hs : s.Distinct) :
    Resolves s.context x v ↔ ∃ symbol, s.resolve x = some symbol ∧ v = variableOf (x, symbol) := by
  change Resolves (s.frames.map _) x v ↔ ∃ symbol, s.frames.findSome? (·.lookup x) = some symbol ∧ _
  have hs' : ∀ F ∈ s.frames, (F.map Prod.fst).Nodup := hs
  generalize s.frames = Fs at hs'
  induction Fs with
  | nil =>
    simp only [List.map_nil, List.findSome?_nil, reduceCtorEq, false_and, exists_false, iff_false]
    exact fun h => nomatch h
  | cons F Fs ih =>
    have hF := hs' F List.mem_cons_self
    have ih := ih fun G hG => hs' G (List.mem_cons_of_mem F hG)
    rw [List.map_cons, List.findSome?_cons]
    cases hl : F.lookup x with
    | none =>
      have hlacks := lookup_eq_none_iff_lacks.mp hl
      refine Iff.trans ?_ ih
      constructor
      · intro h
        cases h with
        | here mem name => exact absurd name (hlacks v mem)
        | outer _ resolves => exact resolves
      · exact .outer hlacks
    | some symbol =>
      have hmem := (lookup_eq_some_iff_mem hF).mp hl
      simp only [Option.some.injEq, exists_eq_left']
      constructor
      · intro h
        cases h with
        | here mem name =>
          obtain ⟨⟨y, other⟩, hb, rfl⟩ := List.mem_map.mp mem
          have hy : y = x := name
          subst hy
          rw [(lookup_eq_some_iff_mem hF).mpr hb] at hl
          cases hl
          rfl
        | outer lacks _ => exact absurd rfl (lacks _ (List.mem_map_of_mem hmem))
      · rintro rfl
        exact .here (List.mem_map_of_mem hmem) rfl

theorem context_declare {s t : ScopeStack} {x : String} {symbol : Symbol}
    (h : s.declare x symbol = .ok t) :
    ∃ F Γ, s.context = F :: Γ ∧ F.Lacks x ∧ t.context = (variableOf (x, symbol) :: F) :: Γ := by
  obtain ⟨F, rest, hs, hl, ht⟩ := declare_eq_ok_iff.mp h
  refine ⟨F.map variableOf, rest.map (·.map variableOf), ?_, lookup_eq_none_iff_lacks.mp hl, ?_⟩
  · rw [context, hs, List.map_cons]
  · rw [context, ht, List.map_cons, List.map_cons]

theorem exists_declare {s : ScopeStack} {F : Typing.Frame} {Γ : Context} {x : String}
    (hs : s.context = F :: Γ) (hF : F.Lacks x) (symbol : Symbol) :
    ∃ t, s.declare x symbol = .ok t ∧ t.context = (variableOf (x, symbol) :: F) :: Γ := by
  obtain ⟨rest, hr⟩ := exists_frames s
  rw [context, hr, List.map_cons] at hs
  cases hs
  obtain ⟨t, ht, hframes⟩ := declare_of_lookup_eq_none hr (lookup_eq_none_iff_lacks.mpr hF) symbol
  refine ⟨t, ht, ?_⟩
  rw [context, hframes, List.map_cons, List.map_cons]

theorem distinct_declare {s t : ScopeStack} {x : String} {symbol : Symbol} (hs : s.Distinct)
    (h : s.declare x symbol = .ok t) : t.Distinct := by
  obtain ⟨F, rest, hF, hl, ht⟩ := declare_eq_ok_iff.mp h
  intro G hG
  rw [ht] at hG
  have hmem : ∀ G ∈ F :: rest, (G.map Prod.fst).Nodup := by
    rw [← hF]
    exact hs
  rcases List.mem_cons.mp hG with rfl | hG
  · rw [List.map_cons, List.nodup_cons]
    refine ⟨fun hx => ?_, hmem F List.mem_cons_self⟩
    obtain ⟨b, hb, hbx⟩ := List.mem_map.mp hx
    have := List.lookup_eq_none_iff.mp hl b hb
    simp [hbx] at this
  · exact hmem G (List.mem_cons_of_mem F hG)

end ScopeStack

end Sema
