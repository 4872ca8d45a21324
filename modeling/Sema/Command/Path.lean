/-!
# Paths

Paths in normal form: repeated slashes, a slash at the end and components `.` do not matter, while
`..` stays. The path without components is the working directory.
-/

namespace Sema

/-- A path: what makes it absolute, if anything, and its components. -/
structure Path where
  root : String
  parts : List String
  deriving DecidableEq

namespace Path

/-- The components of a text between slashes. -/
def components (s : String) : List String :=
  (s.splitOn "/").filter fun part => part != "" && part != "."

/-- What makes a path absolute: one slash or more, of which exactly two are kept apart. -/
def rootOf (s : String) : String :=
  match (s.toList.takeWhile (· == '/')).length with
  | 0 => ""
  | 2 => "//"
  | _ => "/"

/-- The path that a text spells. -/
def ofText (s : String) : Path :=
  ⟨rootOf s, components s⟩

/-- The text of a path. -/
def text (p : Path) : String :=
  if p.root == "" && p.parts.isEmpty then "." else p.root ++ "/".intercalate p.parts

/-- Whether a path can be handed to the system, for which texts end at the first NUL. -/
def isPassable (p : Path) : Bool :=
  !p.text.toList.contains '\x00'

/-- The path of a file in a directory. -/
def child (p : Path) (name : String) : Path :=
  { p with parts := p.parts ++ [name] }

end Path

end Sema
