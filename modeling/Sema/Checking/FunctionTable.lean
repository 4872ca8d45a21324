import Sema.Checking.Walk

/-!
# The table of functions

Functions by key, in the order in which the keys were first put in. A function is normally kept
under its own name.
-/

namespace Sema

/-- The functions that are known, with their keys. -/
structure FunctionTable where
  entries : List (String × FunctionSymbol) := []
  deriving DecidableEq

namespace FunctionTable

/-- The table without entries. -/
def empty : FunctionTable := ⟨[]⟩

/-- The function under a key. -/
def find? (t : FunctionTable) (key : String) : Option FunctionSymbol :=
  t.entries.lookup key

/-- Whether there is a function under a key. -/
def contains (t : FunctionTable) (key : String) : Bool :=
  (t.find? key).isSome

/-- The keys in order. -/
def keys (t : FunctionTable) : List String :=
  t.entries.map (·.1)

/-- The functions in order. -/
def functions (t : FunctionTable) : List FunctionSymbol :=
  t.entries.map (·.2)

/-- Changes the function under a key. -/
def modify (t : FunctionTable) (key : String) (f : FunctionSymbol → FunctionSymbol) :
    FunctionTable :=
  ⟨t.entries.map fun (k, fn) => if k = key then (k, f fn) else (k, fn)⟩

/-- Puts a function under a key; one that is there already is replaced where it stands. -/
def insert (t : FunctionTable) (key : String) (fn : FunctionSymbol) : FunctionTable :=
  if t.contains key then t.modify key fun _ => fn else ⟨t.entries ++ [(key, fn)]⟩

/-! ## Laws -/

@[simp] theorem keys_modify (t : FunctionTable) (key : String)
    (f : FunctionSymbol → FunctionSymbol) : (t.modify key f).keys = t.keys := by
  simp only [keys, modify, List.map_map]
  refine List.map_congr_left fun entry _ => ?_
  by_cases h : entry.1 = key <;> simp [h]

theorem keys_insert (t : FunctionTable) (key : String) (fn : FunctionSymbol) :
    (t.insert key fn).keys = if t.contains key then t.keys else t.keys ++ [key] := by
  unfold insert
  split
  · exact keys_modify t key _
  · simp [keys]

end FunctionTable

end Sema
