import Mathlib.Data.List.Infix
import Sema.Proofs.Checking.Frames

/-!
# Scopes over a history of calls

Calls on a scope stack in any order, failing ones among them (`ScopeStack.Call`). What is in scope
can be read off the calls alone: a frame is open as long as the level has not gone below its own
(`ScopeStack.OpenSince`), and a name stands for the first symbol declared under it in the innermost
open frame that has one (`ScopeStack.Denotes`). The frames are what the calls say
(`ScopeStack.Reflects`), so calls succeed and names resolve as they say, and whatever happens in a
frame is undone when it is closed (`ScopeStack.calls_scope_lexically`).
-/

namespace Sema

namespace ScopeStack

/-! ## Calls -/

/-- A call on a scope stack. -/
inductive Call where
  | push
  | pop
  | declare (name : String) (symbol : Symbol)
  | resolve (name : String)
  deriving DecidableEq

namespace Call

/-- Carries out a call. What it changed before a failure stays changed. -/
def perform : Call → ExceptT ScopeError (StateM ScopeStack) (Option Symbol)
  | push => do
    modify ScopeStack.push
    return none
  | pop => do
    set (← (← get).pop)
    return none
  | declare name symbol => do
    set (← (← get).declare name symbol)
    return none
  | resolve name => return (← get).resolve name

/-- What a call answers; only a resolved name has a symbol. -/
def answer (call : Call) (s : ScopeStack) : Except ScopeError (Option Symbol) :=
  (call.perform.run s).1

def next (call : Call) (s : ScopeStack) : ScopeStack :=
  (call.perform.run s).2

/-- What the calls answer and do to the frames. -/
inductive Does (s : ScopeStack) : Call → Except ScopeError (Option Symbol) → ScopeStack → Prop
  | push {t : ScopeStack} (opened : t.frames = [] :: s.frames) : Does s push (.ok none) t
  | pop {t : ScopeStack} {F : Scope} (closed : s.frames = F :: t.frames) : Does s pop (.ok none) t
  /-- The global frame is not closed. -/
  | popGlobal (alone : s.depth = 1) : Does s pop (.error .globalFrame) s
  | declare {t : ScopeStack} {F : Scope} {rest : List Scope} {name : String} {symbol : Symbol}
      (frames : s.frames = F :: rest) (free : F.lookup name = none)
      (bound : t.frames = ((name, symbol) :: F) :: rest) :
      Does s (declare name symbol) (.ok none) t
  /-- The first symbol of a name in a frame stays the only one. -/
  | redeclare {name : String} {symbol existing : Symbol}
      (taken : s.innermost.lookup name = some existing) :
      Does s (declare name symbol) (.error (.duplicate name existing)) s
  | resolve {name : String} : Does s (resolve name) (.ok (s.resolve name)) s

theorem perform_declare_of_ok {s t : ScopeStack} {name : String} {symbol : Symbol}
    (h : s.declare name symbol = .ok t) :
    (declare name symbol).perform.run s = (.ok none, t) := by
  change (do set (← s.declare name symbol); return none :
    ExceptT ScopeError (StateM ScopeStack) (Option Symbol)).run s = _
  rw [h]
  rfl

theorem perform_declare_of_error {s : ScopeStack} {e : ScopeError} {name : String}
    {symbol : Symbol} (h : s.declare name symbol = .error e) :
    (declare name symbol).perform.run s = (.error e, s) := by
  change (do set (← s.declare name symbol); return none :
    ExceptT ScopeError (StateM ScopeStack) (Option Symbol)).run s = _
  rw [h]
  rfl

theorem does (call : Call) (s : ScopeStack) : call.Does s (call.answer s) (call.next s) := by
  cases call with
  | push => exact .push rfl
  | pop =>
    obtain ⟨inner, global⟩ := s
    cases inner with
    | nil => exact .popGlobal rfl
    | cons F rest => exact .pop rfl
  | declare name symbol =>
    unfold answer next
    cases h : s.declare name symbol with
    | ok t =>
      obtain ⟨F, rest, frames, free, bound⟩ := declare_eq_ok_iff.mp h
      rw [perform_declare_of_ok h]
      exact .declare frames free bound
    | error e =>
      obtain ⟨existing, taken, rfl⟩ := declare_eq_error_iff.mp h
      rw [perform_declare_of_error h]
      exact .redeclare taken
  | resolve name => exact .resolve

theorem answer_pop_of_alone {s : ScopeStack} (h : s.depth = 1) :
    pop.answer s = .error .globalFrame := by
  obtain ⟨inner, global⟩ := s
  cases inner with
  | nil => rfl
  | cons F rest => simp [depth] at h

theorem frames_next_pop {s : ScopeStack} (h : 1 < s.depth) :
    (pop.next s).frames = s.frames.tail := by
  obtain ⟨inner, global⟩ := s
  cases inner with
  | nil => simp [depth] at h
  | cons F rest => rfl

theorem answer_declare_of_taken {s : ScopeStack} {name : String} {existing : Symbol}
    (h : s.innermost.lookup name = some existing) (symbol : Symbol) :
    (declare name symbol).answer s = .error (.duplicate name existing) := by
  rw [answer, perform_declare_of_error (declare_eq_error_iff.mpr ⟨existing, h, rfl⟩)]

theorem answer_resolve (name : String) (s : ScopeStack) :
    (resolve name).answer s = .ok (s.resolve name) := rfl

theorem Does.eq_of_error {s t : ScopeStack} {call : Call} {e : ScopeError}
    (h : call.Does s (.error e) t) : t = s := by
  cases h with
  | popGlobal => rfl
  | redeclare => rfl

theorem Does.tail_suffix {s t : ScopeStack} {call : Call} {result}
    (h : call.Does s result t) : s.frames.tail <:+ t.frames := by
  cases h with
  | push opened =>
    rw [opened]
    exact (List.tail_suffix _).trans (List.suffix_cons _ _)
  | pop closed =>
    rw [closed]
    exact List.suffix_refl _
  | declare frames _ bound =>
    rw [frames, bound]
    exact List.suffix_cons _ _
  | popGlobal => exact List.tail_suffix _
  | redeclare => exact List.tail_suffix _
  | resolve => exact List.tail_suffix _

end Call

def after (s : ScopeStack) (calls : List Call) : ScopeStack :=
  calls.foldl (fun s call => call.next s) s

@[simp] theorem after_nil (s : ScopeStack) : s.after [] = s := rfl

@[simp] theorem after_cons (s : ScopeStack) (call : Call) (calls : List Call) :
    s.after (call :: calls) = (call.next s).after calls := rfl

theorem after_concat (s : ScopeStack) (calls : List Call) (call : Call) :
    s.after (calls ++ [call]) = call.next (s.after calls) :=
  List.foldl_append

/-! ## What the calls say -/

/-- The level after one more call. The global frame, at level one, stays open. -/
def levelAfter (k : Nat) : Call → Nat
  | .push => k + 1
  | .pop => max 1 (k - 1)
  | .declare _ _ => k
  | .resolve _ => k

/-- The level of the frame that is innermost after calls. -/
def level (calls : List Call) : Nat :=
  calls.foldl levelAfter 1

theorem level_concat (calls : List Call) (call : Call) :
    level (calls ++ [call]) = levelAfter (level calls) call :=
  List.foldl_append

/-- The frame that is innermost after the calls `before` is still open after all the calls: the
level has not been below its own since. -/
def OpenSince (before calls : List Call) : Prop :=
  ∀ part, before <+: part → part <+: calls → level before ≤ level part

/-- After the calls `before`, the name was declared, with success and in a frame that is still open
after all the calls. -/
structure Declared (calls before : List Call) (name : String) (symbol : Symbol) : Prop where
  called : before ++ [.declare name symbol] <+: calls
  succeeded : (Call.declare name symbol).answer (empty.after before) = .ok none
  stillOpen : OpenSince before calls

/-- The symbol is the one that was declared first under the name, in the innermost open frame where
the name was declared at all. -/
def Denotes (calls : List Call) (name : String) (symbol : Symbol) : Prop :=
  ∃ before, Declared calls before name symbol ∧
    ∀ other symbol', Declared calls other name symbol' →
      level other ≤ level before ∧ (level other = level before → before.length ≤ other.length)

/-- The calls that fail after other calls, with their errors. -/
inductive Refused (calls : List Call) : Call → ScopeError → Prop
  | pop (alone : level calls = 1) : Refused calls .pop .globalFrame
  | declare {before : List Call} {name : String} {symbol existing : Symbol}
      (declared : Declared calls before name existing) (here : level before = level calls) :
      Refused calls (.declare name symbol) (.duplicate name existing)

/-! ## One more call -/

variable {s t : ScopeStack} {calls before : List Call} {call : Call} {name : String}
  {symbol : Symbol}

theorem Declared.before_prefix (h : Declared calls before name symbol) : before <+: calls :=
  (List.prefix_append before _).trans h.called

theorem Declared.restrict {part : List Call} (h : Declared calls before name symbol)
    (hpart : part <+: calls) (hbefore : before.length < part.length) :
    Declared part before name symbol where
  called := List.prefix_of_prefix_length_le h.called hpart <| by
    rw [List.length_append, List.length_singleton]
    exact Nat.succ_le_of_lt hbefore
  succeeded := h.succeeded
  stillOpen := fun between hfrom hto => h.stillOpen between hfrom (hto.trans hpart)

theorem openSince_concat (hbefore : before <+: calls) :
    OpenSince before (calls ++ [call]) ↔
      OpenSince before calls ∧ level before ≤ level (calls ++ [call]) := by
  constructor
  · intro h
    have hcalls : calls <+: calls ++ [call] := List.prefix_append _ _
    exact ⟨fun part hfrom hto => h part hfrom (hto.trans hcalls),
      h _ (hbefore.trans hcalls) (List.prefix_refl _)⟩
  · rintro ⟨h, hlevel⟩ part hfrom hto
    rcases List.prefix_concat_iff.mp hto with rfl | hto
    · exact hlevel
    · exact h part hfrom hto

theorem declared_concat :
    Declared (calls ++ [call]) before name symbol ↔
      Declared calls before name symbol ∧ level before ≤ level (calls ++ [call]) ∨
        before = calls ∧ call = .declare name symbol ∧
          call.answer (empty.after calls) = .ok none := by
  constructor
  · rintro ⟨called, succeeded, stillOpen⟩
    rcases List.prefix_concat_iff.mp called with heq | called
    · obtain ⟨rfl, hcall⟩ := List.append_inj' heq rfl
      cases hcall
      exact .inr ⟨rfl, rfl, succeeded⟩
    · have hbefore := (List.prefix_append before _).trans called
      obtain ⟨stillOpen, hlevel⟩ := (openSince_concat hbefore).mp stillOpen
      exact .inl ⟨⟨called, succeeded, stillOpen⟩, hlevel⟩
  · rintro (⟨h, hlevel⟩ | ⟨rfl, rfl, succeeded⟩)
    · exact ⟨h.called.trans (List.prefix_append _ _), h.succeeded,
        (openSince_concat h.before_prefix).mpr ⟨h.stillOpen, hlevel⟩⟩
    · refine ⟨List.prefix_refl _, succeeded, fun part hfrom hto => ?_⟩
      rcases List.prefix_concat_iff.mp hto with rfl | hto
      · exact Nat.le_of_eq (level_concat before (.declare name symbol)).symm
      · exact Nat.le_of_eq (congrArg level (hfrom.eq_of_length_le hto.length_le))

/-! ## What the frames hold -/

/-- What a name is bound to in the frame of a level; the last frame of the list has level one. -/
def boundAt : List Scope → Nat → String → Option Symbol
  | [], _, _ => none
  | F :: Fs, k, x => if k = Fs.length + 1 then F.lookup x else boundAt Fs k x

section Bound

variable {F : Scope} {Fs : List Scope} {k : Nat} {x : String} {a b : Symbol}

theorem boundAt_innermost (F : Scope) (Fs : List Scope) (x : String) :
    boundAt (F :: Fs) (Fs.length + 1) x = F.lookup x :=
  if_pos rfl

theorem boundAt_around (h : k ≠ Fs.length + 1) : boundAt (F :: Fs) k x = boundAt Fs k x :=
  if_neg h

theorem le_length_of_boundAt (h : boundAt Fs k x = some a) : k ≤ Fs.length := by
  induction Fs with
  | nil => cases h
  | cons F Fs ih =>
    rw [List.length_cons]
    by_cases hk : k = Fs.length + 1
    · exact Nat.le_of_eq hk
    · rw [boundAt_around hk] at h
      exact Nat.le_succ_of_le (ih h)

theorem boundAt_of_lookup_eq_none (h : F.lookup x = none) (k : Nat) :
    boundAt (F :: Fs) k x = boundAt Fs k x := by
  by_cases hk : k = Fs.length + 1
  · subst hk
    rw [boundAt_innermost, h]
    cases hFs : boundAt Fs (Fs.length + 1) x with
    | none => rfl
    | some a =>
      have := le_length_of_boundAt hFs
      omega
  · exact boundAt_around hk

theorem findSome?_lookup_eq_some_iff :
    Fs.findSome? (·.lookup x) = some a ↔
      ∃ k, boundAt Fs k x = some a ∧ ∀ k' b, boundAt Fs k' x = some b → k' ≤ k := by
  induction Fs with
  | nil => simp [boundAt]
  | cons F Fs ih =>
    rw [List.findSome?_cons]
    cases hF : F.lookup x with
    | none => simp only [boundAt_of_lookup_eq_none hF, ih]
    | some b =>
      have hb : boundAt (F :: Fs) (Fs.length + 1) x = some b := by rw [boundAt_innermost, hF]
      constructor
      · intro h
        exact ⟨Fs.length + 1, hb.trans h, fun k' b' hk' => le_length_of_boundAt hk'⟩
      · rintro ⟨k, hk, hmax⟩
        have hle := le_length_of_boundAt hk
        have hge := hmax _ _ hb
        obtain rfl : k = Fs.length + 1 := Nat.le_antisymm hle hge
        rw [← hk, hb]

theorem findSome?_lookup_eq_none_iff :
    Fs.findSome? (·.lookup x) = none ↔ ∀ k, boundAt Fs k x = none := by
  induction Fs with
  | nil => simp [boundAt]
  | cons F Fs ih =>
    rw [List.findSome?_cons]
    cases hF : F.lookup x with
    | none => simp only [boundAt_of_lookup_eq_none hF, ih]
    | some b =>
      refine iff_of_false nofun fun h => ?_
      rw [← boundAt_innermost F Fs, h] at hF
      cases hF

end Bound

theorem length_frames (s : ScopeStack) : s.frames.length = s.depth :=
  List.length_append

namespace Call.Does

variable {result : Except ScopeError (Option Symbol)}

theorem depth (h : call.Does s result t) : t.depth = levelAfter s.depth call := by
  have ht := t.one_le_depth
  cases h with
  | push opened =>
    rw [← length_frames, opened, List.length_cons, length_frames, levelAfter]
  | pop closed =>
    have hs : s.depth = t.depth + 1 := by
      rw [← length_frames, closed, List.length_cons, length_frames]
    rw [levelAfter, hs]
    omega
  | popGlobal alone => rw [levelAfter, alone]; rfl
  | declare frames _ bound =>
    rw [← length_frames, bound, levelAfter, ← length_frames s, frames]
    rfl
  | redeclare => rfl
  | resolve => rfl

theorem boundAt_iff_of_kept {k : Nat}
    (hcall : ¬(call = .declare name symbol ∧ result = .ok none))
    (hkept : k ≤ t.depth → boundAt t.frames k name = boundAt s.frames k name) :
    boundAt t.frames k name = some symbol ↔
      boundAt s.frames k name = some symbol ∧ k ≤ t.depth ∨
        k = s.depth ∧ call = .declare name symbol ∧ result = .ok none := by
  rw [or_iff_left fun h => hcall h.2]
  constructor
  · intro h
    have hk : k ≤ t.depth := length_frames t ▸ le_length_of_boundAt h
    exact ⟨hkept hk ▸ h, hk⟩
  · rintro ⟨h, hk⟩
    exact (hkept hk).trans h

/-- What is bound after a call was bound before, in a frame that is still open, or is bound by the
call. -/
theorem boundAt_iff {k : Nat} (h : call.Does s result t) :
    boundAt t.frames k name = some symbol ↔
      boundAt s.frames k name = some symbol ∧ k ≤ t.depth ∨
        k = s.depth ∧ call = .declare name symbol ∧ result = .ok none := by
  cases h with
  | push opened =>
    refine boundAt_iff_of_kept (nofun) fun _ => ?_
    rw [opened, boundAt_of_lookup_eq_none rfl]
  | pop closed =>
    refine boundAt_iff_of_kept (nofun) fun hk => ?_
    have hne : k ≠ t.frames.length + 1 := by
      rw [length_frames]
      omega
    rw [closed, boundAt_around hne]
  | popGlobal => exact boundAt_iff_of_kept (nofun) fun _ => rfl
  | @declare t F rest declared bound frames free binds =>
    have hs : s.depth = rest.length + 1 := by rw [← length_frames, frames, List.length_cons]
    have ht : t.depth = rest.length + 1 := by rw [← length_frames, binds, List.length_cons]
    rw [frames, binds, hs, ht]
    -- only the innermost frame changes, and in it only what the declared name is bound to
    by_cases hk : k = rest.length + 1
    · subst hk
      rw [boundAt_innermost, boundAt_innermost, List.lookup_cons]
      by_cases hname : name = declared
      · simp [hname, free]
      · simp [Ne.symm hname, beq_false_of_ne hname]
    · rw [boundAt_around hk, boundAt_around hk]
      refine ⟨fun h => .inl ⟨h, ?_⟩, fun h => ?_⟩
      · exact Nat.le_succ_of_le (le_length_of_boundAt h)
      · exact (h.resolve_right fun h => hk h.1).1
  | redeclare => exact boundAt_iff_of_kept (nofun) fun _ => rfl
  | resolve => exact boundAt_iff_of_kept (nofun) fun _ => rfl

end Call.Does

/-! ## The frames are what the calls say -/

/-- The open frames and their bindings are those that the calls say. -/
structure Reflects (s : ScopeStack) (calls : List Call) : Prop where
  depth : s.depth = level calls
  bound : ∀ k name symbol, boundAt s.frames k name = some symbol ↔
    ∃ before, Declared calls before name symbol ∧ level before = k

theorem reflects_nil : Reflects empty [] where
  depth := rfl
  bound k name symbol := by
    rw [show empty.frames = [[]] from rfl, boundAt_of_lookup_eq_none rfl]
    refine iff_of_false nofun ?_
    rintro ⟨before, h, -⟩
    have hnil := List.prefix_nil.mp h.called
    simp at hnil

theorem Reflects.concat (h : Reflects (empty.after calls) calls) (call : Call) :
    Reflects (empty.after (calls ++ [call])) (calls ++ [call]) := by
  have hdoes := call.does (empty.after calls)
  have hdepth : (call.next (empty.after calls)).depth = level (calls ++ [call]) := by
    rw [hdoes.depth, h.depth, level_concat]
  rw [after_concat]
  refine ⟨hdepth, fun k name symbol => ?_⟩
  rw [hdoes.boundAt_iff, h.bound, hdepth, h.depth]
  simp only [declared_concat]
  constructor
  · rintro (⟨⟨before, hdecl, rfl⟩, hk⟩ | ⟨rfl, hnew⟩)
    · exact ⟨before, .inl ⟨hdecl, hk⟩, rfl⟩
    · exact ⟨calls, .inr ⟨rfl, hnew⟩, rfl⟩
  · rintro ⟨before, ⟨hdecl, hk⟩ | ⟨rfl, hnew⟩, rfl⟩
    · exact .inl ⟨⟨before, hdecl, rfl⟩, hk⟩
    · exact .inr ⟨rfl, hnew⟩

theorem reflects (calls : List Call) : Reflects (empty.after calls) calls := by
  induction calls using List.reverseRecOn with
  | nil => exact reflects_nil
  | append_singleton calls call ih => exact ih.concat call

theorem lookup_innermost_iff :
    (empty.after calls).innermost.lookup name = some symbol ↔
      ∃ before, Declared calls before name symbol ∧ level before = level calls := by
  obtain ⟨rest, frames⟩ := exists_frames (empty.after calls)
  have hdepth : rest.length + 1 = level calls := by
    rw [← (reflects calls).depth, ← length_frames, frames, List.length_cons]
  rw [← (reflects calls).bound, ← hdepth, frames, boundAt_innermost]

theorem Declared.length_le {other : List Call} {symbol' : Symbol}
    (h : Declared calls before name symbol) (h' : Declared calls other name symbol')
    (hlevel : level other = level before) : before.length ≤ other.length := by
  by_contra hlt
  have hearlier : Declared before other name symbol' :=
    h'.restrict h.before_prefix (Nat.lt_of_not_le hlt)
  have htaken := lookup_innermost_iff.mpr ⟨other, hearlier, hlevel⟩
  have hrefused := Call.answer_declare_of_taken htaken symbol
  rw [h.succeeded] at hrefused
  cases hrefused

theorem resolve_eq_some_iff :
    (empty.after calls).resolve name = some symbol ↔ Denotes calls name symbol := by
  change (empty.after calls).frames.findSome? (·.lookup name) = some symbol ↔ _
  rw [findSome?_lookup_eq_some_iff]
  simp only [(reflects calls).bound]
  constructor
  · rintro ⟨k, ⟨before, hdecl, rfl⟩, hmax⟩
    refine ⟨before, hdecl, fun other symbol' hother => ⟨?_, hdecl.length_le hother⟩⟩
    exact hmax _ symbol' ⟨other, hother, rfl⟩
  · rintro ⟨before, hdecl, hfirst⟩
    refine ⟨level before, ⟨before, hdecl, rfl⟩, ?_⟩
    rintro k symbol' ⟨other, hother, rfl⟩
    exact (hfirst other symbol' hother).1

theorem resolve_eq_none_iff :
    (empty.after calls).resolve name = none ↔
      ∀ before symbol, ¬Declared calls before name symbol := by
  change (empty.after calls).frames.findSome? (·.lookup name) = none ↔ _
  rw [findSome?_lookup_eq_none_iff]
  constructor
  · intro h before symbol hdecl
    have hbound := ((reflects calls).bound _ _ _).mpr ⟨before, hdecl, rfl⟩
    rw [h] at hbound
    cases hbound
  · intro h k
    refine Option.eq_none_iff_forall_ne_some.mpr fun symbol hbound => ?_
    obtain ⟨before, hdecl, -⟩ := ((reflects calls).bound _ _ _).mp hbound
    exact h before symbol hdecl

theorem answer_eq_error_iff {e : ScopeError} :
    call.answer (empty.after calls) = .error e ↔ Refused calls call e := by
  have hdepth := (reflects calls).depth
  constructor
  · intro h
    have hdoes := call.does (empty.after calls)
    rw [h] at hdoes
    generalize call.next (empty.after calls) = t at hdoes
    cases hdoes with
    | popGlobal alone => exact .pop (hdepth ▸ alone)
    | redeclare taken =>
      obtain ⟨before, hdecl, hlevel⟩ := lookup_innermost_iff.mp taken
      exact .declare hdecl hlevel
  · intro h
    cases h with
    | pop alone => exact Call.answer_pop_of_alone (hdepth.trans alone)
    | declare hdecl hlevel =>
      exact Call.answer_declare_of_taken (lookup_innermost_iff.mpr ⟨_, hdecl, hlevel⟩) _

/-! ## Closing what was opened -/

theorem suffix_tail {α : Type} {l m : List α} (h : l <:+ m) (hlength : l.length < m.length) :
    l <:+ m.tail := by
  cases m with
  | nil => exact h
  | cons a m =>
    refine (List.suffix_cons_iff.mp h).resolve_left fun heq => ?_
    rw [heq] at hlength
    exact Nat.lt_irrefl _ hlength

theorem frames_suffix_after
    (h : ∀ part, part <+: calls → s.push.depth ≤ (s.push.after part).depth) :
    s.frames <:+ (s.push.after calls).frames := by
  induction calls using List.reverseRecOn with
  | nil => exact List.suffix_cons [] s.frames
  | append_singleton calls call ih =>
    have ih := ih fun part hpart => h part (hpart.trans (List.prefix_append _ _))
    have hdepth := h calls (List.prefix_append _ _)
    have hlength : s.frames.length < (s.push.after calls).frames.length := by
      rw [length_frames, length_frames]
      exact hdepth
    rw [after_concat]
    exact (suffix_tail ih hlength).trans (call.does (s.push.after calls)).tail_suffix

theorem after_pops (h : s.frames <:+ t.frames) :
    t.after (.replicate (t.depth - s.depth) .pop) = s := by
  generalize hn : t.depth - s.depth = n
  have hle := h.length_le
  rw [length_frames, length_frames] at hle
  induction n generalizing t with
  | zero =>
    have hlength : s.frames.length = t.frames.length := by
      rw [length_frames, length_frames]
      omega
    exact (frames_injective (h.eq_of_length hlength)).symm
  | succ n ih =>
    have hs := s.one_le_depth
    have htail : (Call.next .pop t).frames = t.frames.tail := Call.frames_next_pop (by omega)
    have hdepth : (Call.next .pop t).depth = t.depth - 1 := by
      rw [← length_frames, htail, List.length_tail, length_frames]
    rw [List.replicate_succ, after_cons]
    refine ih ?_ (by omega) (by omega)
    rw [htail]
    exact suffix_tail h (by rw [length_frames, length_frames]; omega)

/-- After any calls, the global frame is open, and as many frames are as the calls say. Calls fail
where those before refuse them, and change nothing then. A name stands for the first symbol declared
under it in the innermost open frame that has one, and for none if no open frame has. Whatever is
done in a frame and in those inside of it, closing it brings back the stack from before it. -/
theorem calls_scope_lexically (calls : List Call) :
    (1 ≤ (empty.after calls).depth ∧ (empty.after calls).depth = level calls) ∧
      (∀ (call : Call) (e : ScopeError),
        call.answer (empty.after calls) = .error e ↔ Refused calls call e) ∧
      (∀ (call : Call) (e : ScopeError), call.answer (empty.after calls) = .error e →
        call.next (empty.after calls) = empty.after calls) ∧
      (∀ name symbol, (Call.resolve name).answer (empty.after calls) = .ok (some symbol) ↔
        Denotes calls name symbol) ∧
      (∀ name, (Call.resolve name).answer (empty.after calls) = .ok none ↔
        ∀ before symbol, ¬Declared calls before name symbol) ∧
      ∀ (s : ScopeStack) (between : List Call),
        (∀ part, part <+: between → s.push.depth ≤ (s.push.after part).depth) →
          (s.push.after between).after
            (.replicate ((s.push.after between).depth - s.depth) .pop) = s := by
  refine ⟨⟨one_le_depth _, (reflects calls).depth⟩, fun call e => answer_eq_error_iff,
    fun call e h => ?_, fun name symbol => ?_, fun name => ?_, fun s between h => ?_⟩
  · have hdoes := call.does (empty.after calls)
    rw [h] at hdoes
    exact hdoes.eq_of_error
  · rw [Call.answer_resolve, Except.ok.injEq, resolve_eq_some_iff]
  · rw [Call.answer_resolve, Except.ok.injEq, resolve_eq_none_iff]
  · exact after_pops (frames_suffix_after h)

namespace Shadowing

def outer : Symbol := { name := "a", type := .int }

def inner : Symbol := { name := "a", type := .float }

/-- Calls that hide a name twice, fail once and leave a frame open. -/
def between : List Call :=
  [.declare "a" inner, .declare "a" outer, .push, .declare "a" outer, .pop, .push]

/-- A second declaration in the frame of the first one fails, and those that hide it are undone. -/
theorem outer_scopes_lexically :
    (Call.declare "a" inner).answer (empty.after [.declare "a" outer]) =
        .error (.duplicate "a" outer) ∧
      (Call.declare "a" inner).next (empty.after [.declare "a" outer]) =
        empty.after [.declare "a" outer] ∧
      (∀ part, part <+: between → (empty.after [.declare "a" outer]).push.depth ≤
        ((empty.after [.declare "a" outer]).push.after part).depth) ∧
      ((empty.after [.declare "a" outer]).push.after between).after [.pop, .pop] =
        empty.after [.declare "a" outer] := by
  have hrefused : (Call.declare "a" inner).answer (empty.after [.declare "a" outer]) =
      .error (.duplicate "a" outer) := rfl
  have hopen : ∀ part, part <+: between → (empty.after [.declare "a" outer]).push.depth ≤
      ((empty.after [.declare "a" outer]).push.after part).depth := by
    intro part hpart
    rw [← List.mem_inits] at hpart
    revert part
    decide
  obtain ⟨-, -, hkept, -, -, hrestored⟩ := calls_scope_lexically [.declare "a" outer]
  exact ⟨hrefused, hkept _ _ hrefused, hopen, hrestored _ _ hopen⟩

/-- Until then the name stands for the first symbol that hides it. -/
example : (Call.resolve "a").answer (empty.after (.declare "a" outer :: .push :: between)) =
    .ok (some inner) := rfl

end Shadowing

end ScopeStack

end Sema
