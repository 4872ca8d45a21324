import Sema.Checking.Scope
import Sema.Checking.Violation

/-!
# Walks

A walk over a part of a program reads the signatures of the functions and changes the scopes. What
it finds out on the way is a list of findings: violations, and facts on the function it is in. Since
findings are only ever added, what a walk found before a failure is not lost.
-/

namespace Sema

/-- What calls of a function depend on. -/
structure Signature where
  type : Ty
  parameters : List Ty
  isMain : Bool
  deriving DecidableEq

/-- The signature of a function. -/
def FunctionSymbol.signature (f : FunctionSymbol) : Signature :=
  ⟨f.type, f.parameters.map (·.type), f.isMain⟩

/-- What a walk in the body of a function needs to know of that function. -/
structure Caller where
  name : String
  type : Ty
  deriving DecidableEq

/-- The function as the one that its body is in. -/
def FunctionSymbol.caller (f : FunctionSymbol) : Caller :=
  ⟨f.name, f.type⟩

/-- The surroundings of a walk: the functions there are and the one whose body is walked. -/
structure Env where
  callee? : String → Option Signature
  caller : Option Caller

/-- Why a check cannot go on. -/
inductive CheckError where
  | unsupportedDeclaration
  | unsupportedStatement
  | unsupportedExpression
  | unsupportedOperator (op : String)
  | scope (e : ScopeError)
  deriving DecidableEq

/-- The text that reports why a check cannot go on. -/
def CheckError.message : CheckError → String
  | unsupportedDeclaration => "Unsupported top-level declaration"
  | unsupportedStatement => "Unsupported statement"
  | unsupportedExpression => "Unsupported expression"
  | unsupportedOperator op => s!"Unsupported operator '{op}'"
  | scope e => e.message

/-- What a walk finds out. -/
inductive Finding where
  | violation (v : Violation) (loc : Location)
  | globalVar (symbol : Symbol)
  | localVar (symbol : Symbol)
  | control (record : ControlRecord)
  | returned
  | selfCall
  deriving DecidableEq

/-- What a walk leaves behind: the scopes, the findings in order, and its value unless it failed. -/
structure Outcome (α : Type) where
  scopes : ScopeStack
  findings : List Finding
  value : Except CheckError α

/-- A walk with a value of type `α`. -/
def Walk (α : Type) : Type :=
  Env → ScopeStack → Outcome α

namespace Walk

/-- The walk that finds nothing and has the given value. -/
protected def pure {α : Type} (a : α) : Walk α :=
  fun _ scopes => ⟨scopes, [], .ok a⟩

/-- One walk after another. -/
protected def bind {α β : Type} (w : Walk α) (f : α → Walk β) : Walk β :=
  fun env scopes =>
    let first := w env scopes
    match first.value with
    | .error e => ⟨first.scopes, first.findings, .error e⟩
    | .ok a =>
      let second := f a env first.scopes
      ⟨second.scopes, first.findings ++ second.findings, second.value⟩

instance : Monad Walk where
  pure := Walk.pure
  bind := Walk.bind

/-! ## Laws -/

@[simp] theorem pure_apply {α : Type} (a : α) (env : Env) (scopes : ScopeStack) :
    (pure a : Walk α) env scopes = ⟨scopes, [], .ok a⟩ := rfl

theorem bind_apply_of_ok {α β : Type} {w : Walk α} {env : Env} {scopes : ScopeStack} {a : α}
    (h : (w env scopes).value = .ok a) (f : α → Walk β) :
    (w >>= f) env scopes =
      ⟨(f a env (w env scopes).scopes).scopes,
        (w env scopes).findings ++ (f a env (w env scopes).scopes).findings,
        (f a env (w env scopes).scopes).value⟩ := by
  show Walk.bind w f env scopes = _
  simp only [Walk.bind, h]

theorem bind_apply_of_error {α β : Type} {w : Walk α} {env : Env} {scopes : ScopeStack}
    {e : CheckError} (h : (w env scopes).value = .error e) (f : α → Walk β) :
    (w >>= f) env scopes = ⟨(w env scopes).scopes, (w env scopes).findings, .error e⟩ := by
  show Walk.bind w f env scopes = _
  simp only [Walk.bind, h]

theorem bind_pure_self {α : Type} (w : Walk α) : w >>= pure = w := by
  funext env scopes
  cases h : (w env scopes).value with
  | error e => rw [bind_apply_of_error h, ← h]
  | ok a =>
    rw [bind_apply_of_ok h]
    simp only [pure_apply, List.append_nil]
    rw [← h]

theorem bind_bind {α β γ : Type} (w : Walk α) (f : α → Walk β) (g : β → Walk γ) :
    w >>= f >>= g = w >>= fun a => f a >>= g := by
  funext env scopes
  cases h : (w env scopes).value with
  | error e =>
    have hf : ((w >>= f) env scopes).value = .error e := by rw [bind_apply_of_error h]
    rw [bind_apply_of_error hf, bind_apply_of_error h, bind_apply_of_error h]
  | ok a =>
    cases hb : (f a env (w env scopes).scopes).value with
    | error e =>
      have hf : ((w >>= f) env scopes).value = .error e := by rw [bind_apply_of_ok h, hb]
      rw [bind_apply_of_error hf, bind_apply_of_ok h, bind_apply_of_ok h, bind_apply_of_error hb]
    | ok b =>
      have hf : ((w >>= f) env scopes).value = .ok b := by rw [bind_apply_of_ok h, hb]
      rw [bind_apply_of_ok hf, bind_apply_of_ok h, bind_apply_of_ok h, bind_apply_of_ok hb]
      simp only [List.append_assoc]

instance : LawfulMonad Walk :=
  LawfulMonad.mk' Walk bind_pure_self (fun _ _ => rfl) bind_bind

/-! ## Elementary walks -/

/-- Stops the check. -/
def fail {α : Type} (e : CheckError) : Walk α :=
  fun _ scopes => ⟨scopes, [], .error e⟩

/-- Adds a finding. -/
def find (finding : Finding) : Walk Unit :=
  fun _ scopes => ⟨scopes, [finding], .ok ()⟩

/-- Reports a violation at a place. -/
def report (v : Violation) (loc : Location) : Walk Unit :=
  find (.violation v loc)

/-- Reports a violation if there is one. -/
def reportIf (broken : Bool) (v : Violation) (loc : Location) : Walk Unit :=
  if broken then report v loc else pure ()

/-- The signature of a function. -/
def callee? (name : String) : Walk (Option Signature) :=
  fun env scopes => ⟨scopes, [], .ok (env.callee? name)⟩

def caller : Walk (Option Caller) :=
  fun env scopes => ⟨scopes, [], .ok env.caller⟩

/-- The symbol that a name stands for. -/
def resolve (name : String) : Walk (Option Symbol) :=
  fun _ scopes => ⟨scopes, [], .ok (scopes.resolve name)⟩

/-- Opens a frame. -/
def push : Walk Unit :=
  fun _ scopes => ⟨scopes.push, [], .ok ()⟩

/-- Closes the innermost frame. -/
def pop : Walk Unit :=
  fun _ scopes =>
    match scopes.pop with
    | .ok popped => ⟨popped, [], .ok ()⟩
    | .error e => ⟨scopes, [], .error (.scope e)⟩

/-- Binds a symbol to its name in the innermost frame; tells whether the name was free there. -/
def declare (symbol : Symbol) : Walk Bool :=
  fun _ scopes =>
    match scopes.declare symbol.name symbol with
    | .ok declared => ⟨declared, [], .ok true⟩
    | .error _ => ⟨scopes, [], .ok false⟩

/-- The type that a declaration names; an undefined one is reported and makes it unknown. -/
def resolveType (name : Option String) (loc : Location) : Walk Ty :=
  match Ty.resolve name with
  | .ok type => pure type
  | .error e => do
    report (.undefinedType e) loc
    return .unknown

end Walk

end Sema
