import Sema.Checking.Checker
import Sema.Text.Quoted

/-!
# Sessions

A checker that is driven step by step: besides checking programs and parts of them, its scopes, its
table of functions and the function it is in can be set by hand.
-/

namespace Sema

/-- Why a step of a session fails. -/
inductive SessionError where
  | check (e : CheckError)
  | noFunction (key : String)
  deriving DecidableEq

/-- The text that reports a failed step. -/
def SessionError.message : SessionError → String
  | check e => e.message
  | noFunction key => Quoted.quoted key

namespace Session

/-- Carries out a step of a check. -/
def run {α : Type} (step : CheckM α) (c : Checker) : Except SessionError α × Checker :=
  match step.run c with
  | (.ok a, c) => (.ok a, c)
  | (.error e, c) => (.error (.check e), c)

/-- Checks a program with what is known from before. -/
def check (p : Program) : Checker → Except SessionError Unit × Checker :=
  run (Checking.checkProgram p)

/-- Walks over a statement. -/
def stmt (s : Stmt) : Checker → Except SessionError Unit × Checker :=
  run (CheckM.walk (Checking.checkStmt s))

/-- Walks over an expression. -/
def expr (e : Expr) : Checker → Except SessionError Ty × Checker :=
  run (CheckM.walk (Checking.checkExpr e))

/-- Enters the function under a key, or leaves the one the checker is in. -/
def enter (key : Option String) (c : Checker) : Except SessionError Unit × Checker :=
  match key with
  | none => (.ok (), { c with current := .nowhere })
  | some key =>
    if c.functions.contains key then (.ok (), { c with current := .entry key })
    else (.error (.noFunction key), c)

/-- Puts a function into the table. If the checker is in the function that is replaced, it stays in
that one, outside of the table. -/
def define (key : String) (f : FunctionSymbol) (c : Checker) : Checker :=
  let current :=
    match c.current with
    | .entry k =>
      if k = key then c.function?.elim .nowhere .detached else .entry k
    | other => other
  { c with functions := c.functions.insert key f, current }

/-- Binds a symbol in the innermost frame. -/
def declare (symbol : Symbol) (c : Checker) : Except SessionError Unit × Checker :=
  match c.scopes.declare symbol.name symbol with
  | .ok scopes => (.ok (), { c with scopes })
  | .error e => (.error (.check (.scope e)), c)

/-- Opens a frame. -/
def push (c : Checker) : Checker :=
  { c with scopes := c.scopes.push }

/-- Closes the innermost frame. -/
def pop (c : Checker) : Except SessionError Unit × Checker :=
  match c.scopes.pop with
  | .ok scopes => (.ok (), { c with scopes })
  | .error e => (.error (.check (.scope e)), c)

end Session

end Sema
