import Sema.Analysis

/-!
# Nested calls

A walk over a tree or a program calls itself on the parts, and a host has room for so many calls
within each other only. The calls that a walk makes are a tree of their own (`Calls`). On a host it
is carried out call by call, in order (`Calls.run`): the first call that there is no room for stops
the walk, and so does the first error that the walk raises.
-/

namespace Sema

/-- The calls that a walk makes, in order, and the error that it raises among them. -/
inductive Calls where
  | call (inner : List Calls)
  | raise (e : AnalysisError)

/-- Why a walk stops on a host. -/
inductive Halt where
  /-- An error of the walk. -/
  | raised (e : AnalysisError)
  /-- A call that the host has no room for. -/
  | noRoom
  deriving DecidableEq

namespace Calls

mutual

/-- Carries out calls where there is room for `room` of them within each other. -/
def run : Nat → Calls → Except Halt Unit
  | _, raise e => .error (.raised e)
  | 0, call _ => .error .noRoom
  | room + 1, call inner => runAll room inner

def runAll (room : Nat) : List Calls → Except Halt Unit
  | [] => .ok ()
  | c :: cs => do
    run room c
    runAll room cs

end

mutual

/-- How calls end where there is room for all of them. -/
def ending : Calls → Except AnalysisError Unit
  | raise e => .error e
  | call inner => endingAll inner

def endingAll : List Calls → Except AnalysisError Unit
  | [] => .ok ()
  | c :: cs => do
    ending c
    endingAll cs

end

mutual

/-- How many calls are within each other, up to where an error is raised. -/
def depth : Calls → Nat
  | raise _ => 0
  | call inner => depthAll inner + 1

def depthAll : List Calls → Nat
  | [] => 0
  | c :: cs =>
    match ending c with
    | .ok () => max (depth c) (depthAll cs)
    | .error _ => depth c

end

/-- The calls that make up a list: on some hosts they are within a call of their own. -/
def listed (own : Bool) (cs : List Calls) : List Calls :=
  if own then [call cs] else cs

/-- Calls each within the one before. -/
def nested : Nat → List Calls
  | 0 => []
  | n + 1 => [call (nested n)]

end Calls

end Sema
