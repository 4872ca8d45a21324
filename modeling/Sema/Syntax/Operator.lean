import Sema.Lexical.Terminal

/-!
# Binary operators

The binary operators, and the six levels of precedence on which they stand.
-/

namespace Sema

/-- The levels of precedence, from the loosest to the tightest. -/
inductive Level where
  | or
  | and
  | equality
  | relation
  | sum
  | product
  deriving DecidableEq

/-- The binary operators. -/
inductive BinaryOp where
  | or
  | and
  | eq
  | ne
  | lt
  | le
  | gt
  | ge
  | add
  | sub
  | mul
  | div
  deriving DecidableEq

namespace BinaryOp

/-- The level on which an operator stands. -/
def level : BinaryOp → Level
  | or => .or
  | and => .and
  | eq | ne => .equality
  | lt | le | gt | ge => .relation
  | add | sub => .sum
  | mul | div => .product

/-- The kind of token that spells an operator. -/
def terminal : BinaryOp → Terminal
  | or => .or
  | and => .and
  | eq => .eq
  | ne => .ne
  | lt => .lt
  | le => .le
  | gt => .gt
  | ge => .ge
  | add => .plus
  | sub => .minus
  | mul => .star
  | div => .slash

/-- The spelling of an operator. -/
def text : BinaryOp → String
  | or => "||"
  | and => "&&"
  | eq => "=="
  | ne => "!="
  | lt => "<"
  | le => "<="
  | gt => ">"
  | ge => ">="
  | add => "+"
  | sub => "-"
  | mul => "*"
  | div => "/"

/-- All binary operators. -/
def all : List BinaryOp :=
  [or, and, eq, ne, lt, le, gt, ge, add, sub, mul, div]

/-- The operator with a given spelling. -/
def ofText? (s : String) : Option BinaryOp :=
  all.find? (·.text == s)

end BinaryOp

end Sema
