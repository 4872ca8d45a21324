import Sema.Checking.Symbol

/-!
# Scopes

Lexical scopes as a stack of frames. The global frame is a field of its own, so that no stack is
without it.
-/

namespace Sema

/-- The bindings of one frame, newest first. -/
abbrev Scope := List (String × Symbol)

/-- Why an operation on scopes fails. -/
inductive ScopeError where
  | duplicate (name : String) (existing : Symbol)
  | globalFrame
  deriving DecidableEq

/-- The text that reports a failed operation. -/
def ScopeError.message : ScopeError → String
  | .duplicate name _ => s!"'{name}' already defined in this scope"
  | .globalFrame => "cannot pop the global frame"

/-- The open frames: `inner` holds the local ones, innermost first. -/
structure ScopeStack where
  inner : List Scope := []
  global : Scope := []
  deriving DecidableEq

namespace ScopeStack

/-- The global frame alone, with no binding. -/
def empty : ScopeStack := ⟨[], []⟩

/-- The number of open frames. -/
def depth (s : ScopeStack) : Nat :=
  s.inner.length + 1

/-- Opens a frame. -/
def push (s : ScopeStack) : ScopeStack :=
  { s with inner := [] :: s.inner }

/-- Closes the innermost frame; the global one stays open. -/
def pop (s : ScopeStack) : Except ScopeError ScopeStack :=
  match s.inner with
  | [] => .error .globalFrame
  | _ :: rest => .ok { s with inner := rest }

/-- The innermost frame. -/
def innermost (s : ScopeStack) : Scope :=
  s.inner.headD s.global

/-- Binds `name` in the innermost frame, unless it is bound there. -/
def declare (s : ScopeStack) (name : String) (symbol : Symbol) : Except ScopeError ScopeStack :=
  match s.innermost.lookup name with
  | some existing => .error (.duplicate name existing)
  | none =>
    match s.inner with
    | [] => .ok { s with global := (name, symbol) :: s.global }
    | frame :: rest => .ok { s with inner := ((name, symbol) :: frame) :: rest }

/-- The symbol bound to `name` in the innermost frame that binds it. -/
def resolve (s : ScopeStack) (name : String) : Option Symbol :=
  (s.inner ++ [s.global]).findSome? (·.lookup name)

/-! ## Laws -/

theorem one_le_depth (s : ScopeStack) : 1 ≤ s.depth :=
  Nat.le_add_left 1 s.inner.length

@[simp] theorem depth_push (s : ScopeStack) : s.push.depth = s.depth + 1 := rfl

@[simp] theorem innermost_push (s : ScopeStack) : s.push.innermost = [] := rfl

@[simp] theorem pop_push (s : ScopeStack) : s.push.pop = .ok s := rfl

@[simp] theorem resolve_push (s : ScopeStack) (name : String) :
    s.push.resolve name = s.resolve name := rfl

theorem declare_eq_error_iff {s : ScopeStack} {name : String} {symbol : Symbol} {e : ScopeError} :
    s.declare name symbol = .error e ↔
      ∃ existing, s.innermost.lookup name = some existing ∧ e = .duplicate name existing := by
  unfold declare
  cases h : s.innermost.lookup name with
  | some existing => simp [eq_comm]
  | none => cases hs : s.inner <;> simp

theorem resolve_declare_self {s t : ScopeStack} {name : String} {symbol : Symbol}
    (h : s.declare name symbol = .ok t) : t.resolve name = some symbol := by
  unfold declare at h
  cases hl : s.innermost.lookup name with
  | some existing => simp [hl] at h
  | none =>
    cases hs : s.inner with
    | nil =>
      simp only [hl, hs, Except.ok.injEq] at h
      simp [← h, resolve]
    | cons frame rest =>
      simp only [hl, hs, Except.ok.injEq] at h
      simp [← h, resolve]

end ScopeStack

end Sema
