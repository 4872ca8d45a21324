/-!
# Locations

The place of a node of a program: the line and column where it starts and, if known, the line where
it ends.
-/

namespace Sema

/-- The place of a node. -/
structure Location where
  line : Int
  column : Int := 0
  endLine : Option Int := none
  deriving DecidableEq

/-- The line where a node ends; without one, the line where it starts. -/
def Location.lastLine (loc : Location) : Int :=
  loc.endLine.getD loc.line

end Sema
