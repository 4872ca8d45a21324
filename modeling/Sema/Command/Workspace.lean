import Sema.Command.Plan

/-!
# Workspaces

The files and directories among which the command runs, as a value, and what a run makes of them.
-/

namespace Sema

/-- A place in the tree of directories: the names on the way from its root. -/
abbrev Place := List String

/-- The files and directories there are. -/
structure Workspace where
  files : List (Place × ByteArray) := []
  directories : List Place := []

namespace Workspace

/-- The place of the working directory. Its name does not matter, as long as no path can spell it. -/
def working : Place := ["."]

/-- The place where a path starts. -/
def base (p : Path) : Place :=
  if p.root == "" then working else []

/-! ## Looking up -/

/-- Whether there is a directory at a place. -/
def isDirectoryAt (w : Workspace) (place : Place) : Bool :=
  place.isEmpty || place == working || w.directories.contains place

/-- The contents of the file at a place. -/
def fileAt? (w : Workspace) (place : Place) : Option ByteArray :=
  w.files.lookup place

/-- The place that a component of a path leads to. -/
def step (place : Place) (part : String) : Place :=
  if part == ".." then place.dropLast else place ++ [part]

/-- How many bytes a component of a path may have. -/
def nameLimit : Nat := 255

/-- How many bytes a path may have. -/
def pathLimit : Nat := 4095

/-- Follows components through directories; the last one need not be there. -/
def follow (w : Workspace) (place : Place) : List String → Except FileError Place
  | [] => .ok place
  | part :: parts =>
    let next := step place part
    if nameLimit < part.utf8ByteSize then .error .nameTooLong
    else if parts.isEmpty || w.isDirectoryAt next then follow w next parts
    else if (w.fileAt? next).isSome then .error .notDirectory
    else .error .missing

/-- The place that a path leads to. -/
def locate (w : Workspace) (p : Path) : Except FileError Place :=
  if pathLimit < p.text.utf8ByteSize then .error .nameTooLong
  else w.follow (base p) p.parts

/-- Whether a path leads to a directory. -/
def isDirectory (w : Workspace) (p : Path) : Bool :=
  match w.locate p with
  | .ok place => w.isDirectoryAt place
  | .error _ => false

/-- Reads a file. -/
def read (w : Workspace) (p : Path) : Except FileError ByteArray := do
  let place ← w.locate p
  if w.isDirectoryAt place then .error .isDirectory
  else
    match w.fileAt? place with
    | some bytes => .ok bytes
    | none => .error .missing

/-! ## Changes -/

/-- Makes one directory, inside one that is there. -/
def makeDir (w : Workspace) (p : Path) : Except FileError Workspace := do
  let place ← w.locate p
  if w.isDirectoryAt place || (w.fileAt? place).isSome then .error .exists
  else .ok { w with directories := place :: w.directories }

/-- Makes a directory, or leaves it if it is there already. -/
def ensureDir (w : Workspace) (p : Path) : Except Fault Workspace :=
  match w.makeDir p with
  | .ok made => .ok made
  | .error e => if w.isDirectory p then .ok w else .error (.file e p)

/-- Makes a directory and those above it; `reversed` holds the components of its path, last first. -/
def makeDirsFrom (w : Workspace) (root : String) : List String → Except Fault Workspace
  | [] => w.ensureDir ⟨root, []⟩
  | part :: above =>
    let p : Path := ⟨root, (part :: above).reverse⟩
    match w.makeDir p with
    | .ok made => .ok made
    | .error .missing => do (← makeDirsFrom w root above).ensureDir p
    | .error e => if w.isDirectory p then .ok w else .error (.file e p)

/-- Makes a directory and those above it, as far as they are missing. -/
def makeDirs (w : Workspace) (p : Path) : Except Fault Workspace :=
  makeDirsFrom w p.root p.parts.reverse

/-- Writes a file. -/
def write (w : Workspace) (p : Path) (bytes : ByteArray) : Except Fault Workspace :=
  match w.locate p with
  | .error e => .error (.file e p)
  | .ok place =>
    if w.isDirectoryAt place then .error (.file .isDirectory p)
    else .ok { w with files := (place, bytes) :: w.files.filter (·.1 != place) }

/-! ## Setting up -/

/-- An empty working directory, on a system with the places that are always there. -/
def bare : Workspace where
  files := [(["dev", "null"], .empty)]
  directories := ["bin", "dev", "etc", "home", "lib", "proc", "root", "tmp", "usr", "var"].map
    fun name => [name]

/-- The directories in which a place lies, outermost first. -/
def above (place : Place) : List Place :=
  (List.range place.length).map place.take

/-- Adds a file, or a directory if there are no contents, below the working directory. -/
def add (w : Workspace) (path : String) (contents : Option ByteArray) : Workspace :=
  let place := working ++ (Path.ofText path).parts
  let w := { w with directories := w.directories ++ above place }
  match contents with
  | none => { w with directories := w.directories ++ [place] }
  | some bytes => { w with files := w.files ++ [(place, bytes)] }

/-- The files below the working directory, with the texts of their paths. -/
def listing (w : Workspace) : List (String × ByteArray) :=
  w.files.filterMap fun (place, bytes) =>
    match place with
    | "." :: parts => some ("/".intercalate parts, bytes)
    | _ => none

/-! ## Runs -/

/-- What a run shows. -/
structure Run where
  output : String := ""
  warnings : String := ""
  workspace : Workspace
  ending : Ending

/-- Takes the steps of a plan one after another, until one fails. -/
def carryOut (ending : Ending) (r : Run) : List Step → Run
  | [] => { r with ending }
  | .print text :: steps => carryOut ending { r with output := r.output ++ text } steps
  | .warn text :: steps => carryOut ending { r with warnings := r.warnings ++ text } steps
  | .makeDirs path :: steps =>
    match r.workspace.makeDirs path with
    | .ok workspace => carryOut ending { r with workspace } steps
    | .error e => { r with ending := .error e }
  | .write path text :: steps =>
    match r.workspace.write path text.toUTF8 with
    | .ok workspace => carryOut ending { r with workspace } steps
    | .error e => { r with ending := .error e }

/-- The plan for the given arguments. -/
def plan (w : Workspace) (args : List String) : Plan :=
  match Invocation.ofArgs args with
  | .help => .help
  | .misuse e => .misuse e
  | .run options => .afterReading options (w.read (Path.ofText options.source))

/-- Runs the command. -/
def run (w : Workspace) (args : List String) : Run :=
  let plan := w.plan args
  carryOut plan.ending { workspace := w, ending := .ok 0 } plan.steps

end Workspace

end Sema
