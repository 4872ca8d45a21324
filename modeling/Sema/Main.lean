import Sema.Command.Plan

/-!
# The command

Runs the plan for the arguments on the files of the system.
-/

namespace Sema

/-- Whether a code that the system gives is the number of an error or its negative. -/
def FileError.hasCode (e : FileError) (code : UInt32) : Bool :=
  let number := UInt32.ofNat e.number
  code == number || code + number == 0

/-- The cause of a failed operation on files, as far as plans know it. -/
def FileError.ofSystem : IO.Error → FileError
  | .alreadyExists .. => .exists
  | .inappropriateType _ code _ =>
    if FileError.notDirectory.hasCode code then .notDirectory else .isDirectory
  | .invalidArgument _ code _ =>
    if FileError.nameTooLong.hasCode code then .nameTooLong else .missing
  | _ => .missing

/-- Tries an operation on files. -/
def attempt {α : Type} (action : IO α) : IO (Except FileError α) := do
  try
    return .ok (← action)
  catch e =>
    return .error (.ofSystem e)

/-- Makes a directory. If that fails for another cause than that one above it is missing, it may be
there already. -/
def makeDir (path : Path) (onMissing : IO (Except Fault Unit)) : IO (Except Fault Unit) := do
  match ← attempt (IO.FS.createDir path.text) with
  | .ok made => return .ok made
  | .error .missing => onMissing
  | .error e =>
    match ← attempt (do (← IO.FS.realPath path.text).isDir) with
    | .ok true => return .ok ()
    | _ => return .error (.file e path)

/-- Makes a directory and those above it, as far as they are missing; the components of its path are
given last first. -/
def makeDirs (root : String) : List String → IO (Except Fault Unit)
  | [] => let path : Path := ⟨root, []⟩; makeDir path (return .error (.file .missing path))
  | part :: above =>
    let path : Path := ⟨root, (part :: above).reverse⟩
    makeDir path do
      match ← makeDirs root above with
      | .ok _ => makeDir path (return .error (.file .missing path))
      | .error fault => return .error fault

/-- Takes one step of a plan. -/
def Step.perform : Step → IO (Except Fault Unit)
  | .print text => .ok <$> IO.print text
  | .warn text => .ok <$> IO.eprint text
  | .makeDirs path => Sema.makeDirs path.root path.parts.reverse
  | .write path text =>
    return (← attempt (IO.FS.writeFile path.text text)).mapError (.file · path)

def Plan.perform (plan : Plan) : IO UInt32 := do
  for step in plan.steps do
    if let .error fault ← step.perform then return ← breakOff fault
  match plan.ending with
  | .ok code => return code.toUInt32
  | .error fault => breakOff fault
where
  breakOff (fault : Fault) : IO UInt32 := do
    IO.eprintln fault.message
    return 1

end Sema

open Sema in
/-- The entry point of the command. -/
def main (args : List String) : IO UInt32 := do
  match Invocation.ofArgs args with
  | .help => Plan.help.perform
  | .misuse e => (Plan.misuse e).perform
  | .run options =>
    let bytes ← attempt (IO.FS.readBinFile (Path.ofText options.source).text)
    (Plan.afterReading options bytes).perform
