import Sema.Diagnostics.Diagnostic
import Sema.Syntax.Location
import Sema.Typing.Ty

/-!
# Violations

The rules of the language that a program can break, and how each case is reported.
-/

namespace Sema

/-- The name of the entry point. -/
def mainName : String := "main"

/-- A broken rule. -/
inductive Violation where
  | undefinedType (e : Ty.Undefined)
  | duplicateFunction (name : String)
  | duplicateParameter (param func : String)
  | duplicateGlobal (name : String)
  | duplicateLocal (name : String)
  | missingMain
  | severalMains (count : Nat)
  | missingReturn (func : String) (type : Ty)
  | badInitializer (name : String) (declared actual : Ty)
  | badReturn (func : String) (declared actual : Ty)
  | badAssignment (target : String) (declared actual : Ty)
  | badArgument (index : Nat) (func : String) (declared actual : Ty)
  | undeclaredVariable (name : String)
  | undefinedFunction (name : String)
  | constAssignment (target : String)
  | mainCall
  | arity (func : String) (declared actual : Nat)
  deriving DecidableEq

namespace Violation

/-- The code under which a violation is reported. -/
def code : Violation → Code
  | undefinedType _ => .unknownType
  | duplicateFunction _ | duplicateParameter _ _ | duplicateGlobal _ | duplicateLocal _ =>
    .duplicateDeclaration
  | missingMain => .missingMain
  | severalMains _ => .duplicateMain
  | missingReturn _ _ => .missingReturn
  | badInitializer _ _ _ | badReturn _ _ _ | badAssignment _ _ _ | badArgument _ _ _ _ =>
    .typeMismatch
  | undeclaredVariable _ => .undeclaredIdentifier
  | undefinedFunction _ => .undeclaredFunction
  | constAssignment _ => .constAssignment
  | mainCall => .illegalMainCall
  | arity _ _ _ => .arityMismatch

/-- The message that reports a violation. -/
def message : Violation → String
  | undefinedType e => e.message
  | duplicateFunction name => s!"Function '{name}' is already defined"
  | duplicateParameter param func => s!"Parameter '{param}' is duplicated in function '{func}'"
  | duplicateGlobal name => s!"Global variable '{name}' is already defined"
  | duplicateLocal name => s!"Local variable '{name}' is already defined"
  | missingMain => s!"No '{mainName}' function is defined"
  | severalMains count => s!"'{mainName}' is defined {count} times"
  | missingReturn func type => s!"Function '{func}' (type {type.name}) does not return a value"
  | badInitializer name declared actual =>
    s!"Incompatible type for '{name}': expected {declared.name}, got {actual.name}"
  | badReturn func declared actual =>
    s!"Invalid return in function '{func}': expected {declared.name}, got {actual.name}"
  | badAssignment target declared actual =>
    s!"Cannot assign {actual.name} to '{target}' of type {declared.name}"
  | badArgument index func declared actual =>
    s!"Argument {index} of '{func}' is incompatible: expected {declared.name}, got {actual.name}"
  | undeclaredVariable name => s!"Variable '{name}' is not declared"
  | undefinedFunction name => s!"Call to undefined function '{name}'"
  | constAssignment target => s!"Illegal assignment to constant '{target}'"
  | mainCall => s!"Function '{mainName}' cannot be called"
  | arity func declared actual =>
    s!"Wrong number of arguments for '{func}': expected {declared}, got {actual}"

/-- The diagnostic for a violation at a place. -/
def located (v : Violation) (loc : Location) : Diagnostic :=
  { code := v.code, message := v.message, line := some loc.line, column := some loc.column }

/-- The diagnostic for a violation of the program as a whole. -/
def global (v : Violation) : Diagnostic :=
  { code := v.code, message := v.message }

end Violation

end Sema
