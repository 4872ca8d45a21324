/-!
# Types

The types a value can have, and the three rules that relate them:

* a declaration names its type, and a missing name stands for `void` (`Ty.resolve`);
* a target accepts values of its own type and of the narrower numeric types (`Ty.accepts`);
* arithmetic yields `float` as soon as one operand is fractional, and adding to a string yields a
  string (`Ty.sum`, `Ty.product`).
-/

namespace Sema

/-- The types of the language. `null` is the type of an omitted initializer, which every target
accepts; `unknown` marks what is already erroneous, and no target accepts it. -/
inductive Ty where
  | int
  | float
  | double
  | string
  | void
  | null
  | unknown
  deriving DecidableEq

namespace Ty

/-- The spelling of a type in programs and reports. -/
def name : Ty → String
  | int => "int"
  | float => "float"
  | double => "double"
  | string => "string"
  | void => "void"
  | null => "null"
  | unknown => "unknown"

/-! ## Declared types -/

/-- A declaration names a type that the language does not have. -/
structure Undefined where
  name : String
  deriving DecidableEq

/-- The text that reports an undefined type name. -/
def Undefined.message (e : Undefined) : String :=
  s!"Type '{e.name}' is not defined"

/-- The types a declaration may name. -/
def declarable : List Ty :=
  [int, float, double, string, void]

/-- The type that a declaration names; without a name it is `void`. -/
def resolve : Option String → Except Undefined Ty
  | none => .ok void
  | some s =>
    match declarable.find? (·.name == s) with
    | some t => .ok t
    | none => .error ⟨s⟩

/-! ## Compatibility -/

/-- The value types that a target takes besides its own. -/
def widens : Ty → List Ty
  | double => [float, int]
  | float => [int]
  | _ => []

/-- Whether a variable, parameter or result of type `target` takes a value of type `value`. -/
def accepts (target value : Ty) : Bool :=
  value != unknown && (value == null || target == value || target.widens.contains value)

/-! ## Results of arithmetic -/

/-- Whether arithmetic with this operand is carried out in floating point. -/
def isFractional : Ty → Bool
  | float => true
  | double => true
  | _ => false

/-- The type of `left * right` and `left / right`. -/
def product (left right : Ty) : Ty :=
  if left.isFractional || right.isFractional then float
  else if left == int && right == int then int
  else unknown

/-- The type of `left + right` and `left - right`: a string operand makes it a concatenation. -/
def sum (left right : Ty) : Ty :=
  if left == string || right == string then string else product left right

end Ty

end Sema
