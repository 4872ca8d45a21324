import Sema.Typing.Ty

/-!
# Symbols

What is known of a variable and of a function. A function's symbol has its signature and the facts
that its body shows: the variables it declares, its control structures, whether it returns and
whether it calls itself.
-/

namespace Sema

/-- A variable or parameter. -/
structure Symbol where
  name : String
  type : Ty
  isConst : Bool := false
  /-- The source text of the initializer. -/
  initText : String := "null"
  line : Int := 0
  deriving DecidableEq

/-- The statements that are listed as control structures. -/
inductive ControlKind where
  | ifThen
  | whileLoop
  | forLoop
  deriving DecidableEq

namespace ControlKind

/-- The keyword of a control structure. -/
def name : ControlKind → String
  | ifThen => "if"
  | whileLoop => "while"
  | forLoop => "for"

/-- All kinds of control structure. -/
def all : List ControlKind :=
  [ifThen, whileLoop, forLoop]

/-- The kind with a given keyword. -/
def ofName? (s : String) : Option ControlKind :=
  all.find? (·.name == s)

end ControlKind

/-- A control structure and the lines it covers. -/
structure ControlRecord where
  kind : ControlKind
  startLine : Int
  endLine : Int
  deriving DecidableEq

/-- The written form of a control structure. -/
def ControlRecord.render (r : ControlRecord) : String :=
  s!"<{r.kind.name}, {r.startLine}, {r.endLine}>"

/-- A function: its signature and what its body shows. `locals` lists every variable declared
anywhere in the body and plays no part in resolving names. -/
structure FunctionSymbol where
  name : String
  type : Ty
  line : Int := 0
  parameters : List Symbol := []
  locals : List Symbol := []
  controls : List ControlRecord := []
  isRecursive : Bool := false
  hasReturn : Bool := false
  isMain : Bool := false
  deriving DecidableEq

/-- How a function is classified in reports. -/
inductive Classification where
  | main
  | recursive
  | iterative
  deriving DecidableEq

def Classification.name : Classification → String
  | .main => "MAIN"
  | .recursive => "RECURSIVE"
  | .iterative => "ITERATIVE"

/-- Being the entry point comes before being recursive. -/
def FunctionSymbol.classification (f : FunctionSymbol) : Classification :=
  if f.isMain then .main else if f.isRecursive then .recursive else .iterative

end Sema
