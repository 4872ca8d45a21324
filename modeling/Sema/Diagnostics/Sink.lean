import Sema.Diagnostics.Diagnostic

/-!
# The diagnostic sink

A sink keeps diagnostics in the order of their arrival, and of several with the same written form
only the first.
-/

namespace Sema

/-- The diagnostics kept so far, in order, and the written forms already taken. -/
structure Sink where
  items : List Diagnostic
  seen : List String
  deriving DecidableEq

namespace Sink

/-- The sink that holds nothing. -/
def empty : Sink := ⟨[], []⟩

/-- Keeps `d` unless a diagnostic of the same written form is there; tells whether it was kept. -/
def add (s : Sink) (d : Diagnostic) : Bool × Sink :=
  if s.seen.contains d.render then (false, s)
  else (true, ⟨s.items ++ [d], d.render :: s.seen⟩)

/-- Adds a diagnostic that is put together from its parts. -/
def report (s : Sink) (code : Code) (message : String) (line column : Option Int := none) :
    Bool × Sink :=
  s.add ⟨code, message, line, column⟩

def extend (s : Sink) (ds : List Diagnostic) : Sink :=
  ds.foldl (fun s d => (s.add d).2) s

/-- The codes of the kept diagnostics, in order. -/
def codes (s : Sink) : List Code :=
  s.items.map (·.code)

/-- The number of kept diagnostics. -/
def size (s : Sink) : Nat :=
  s.items.length

/-! ## Laws -/

@[simp] theorem extend_nil (s : Sink) : s.extend [] = s := rfl

@[simp] theorem extend_cons (s : Sink) (d : Diagnostic) (ds : List Diagnostic) :
    s.extend (d :: ds) = (s.add d).2.extend ds := rfl

theorem extend_append (s : Sink) (ds es : List Diagnostic) :
    s.extend (ds ++ es) = (s.extend ds).extend es :=
  List.foldl_append

theorem add_of_mem {s : Sink} {d : Diagnostic} (h : d.render ∈ s.seen) : s.add d = (false, s) := by
  simp [add, h]

theorem add_of_not_mem {s : Sink} {d : Diagnostic} (h : d.render ∉ s.seen) :
    s.add d = (true, ⟨s.items ++ [d], d.render :: s.seen⟩) := by
  simp [add, h]

end Sink

end Sema
