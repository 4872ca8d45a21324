import Sema.Text.DecimalDigit
import Sema.Text.Quoted

/-!
# Command line options

What the arguments of the command ask for. Options may stand before and after the source; a long
option may be shortened as long as it stays unique, and may have its value attached by `=`; short
ones may be put together, and a value may follow at once, after a single letter also by `=`. After
`--` there are no options, and as an attached value `--` stands for no value.
-/

namespace Sema

/-- The options of the command. -/
inductive Flag where
  | help
  | outDir
  | json
  | verbose
  deriving DecidableEq

namespace Flag

/-- All options. -/
def all : List Flag :=
  [help, outDir, json, verbose]

/-- The letter of a short option. -/
def letter? : Flag → Option Char
  | help => some 'h'
  | outDir => some 'o'
  | json => none
  | verbose => some 'v'

/-- The long name of an option. -/
def longName : Flag → String
  | help => "--help"
  | outDir => "--out-dir"
  | json => "--json"
  | verbose => "--verbose"

/-- An option as messages name it. -/
def shown : Flag → String
  | help => "-h/--help"
  | outDir => "-o/--out-dir"
  | json => "--json"
  | verbose => "-v/--verbose"

/-- Whether an option has a value. -/
def takesValue : Flag → Bool
  | outDir => true
  | _ => false

/-- The option with a given letter. -/
def ofLetter? (c : Char) : Option Flag :=
  all.find? fun f => f.letter? == some c

end Flag

/-- A wrong use of the command. -/
inductive UsageError where
  | sourceMissing
  | unrecognized (args : List String)
  | valueMissing (flag : Flag)
  | valueIgnored (flag : Flag) (value : String)
  | ambiguous (arg : String) (flags : List Flag)
  deriving DecidableEq

/-- The text that reports a wrong use. -/
def UsageError.message : UsageError → String
  | sourceMissing => "the following arguments are required: source"
  | unrecognized args => "unrecognized arguments: " ++ " ".intercalate args
  | valueMissing flag => s!"argument {flag.shown}: expected one argument"
  | valueIgnored flag value =>
    s!"argument {flag.shown}: ignored explicit argument {Quoted.quoted value}"
  | ambiguous arg flags =>
    s!"ambiguous option: {arg} could match " ++ ", ".intercalate (flags.map (·.longName))

/-- What the command is asked to do. -/
structure Options where
  source : String
  /-- The directory for the reports, if one is named. -/
  outDir : Option String := some "."
  json : Bool := false
  verbosity : Nat := 0
  deriving DecidableEq

/-- What the arguments amount to. -/
inductive Invocation where
  | help
  | misuse (e : UsageError)
  | run (options : Options)
  deriving DecidableEq

namespace Options

/-! ## Single arguments -/

/-- How an argument that is an option is to be read. -/
inductive OptionForm where
  /-- An option without anything attached. -/
  | bare (flag : Flag)
  /-- A long option with a value attached by `=`. -/
  | long (flag : Flag) (value : String)
  /-- A short option with characters attached, at once or by `=`. -/
  | short (flag : Flag) (attached : List Char)
  deriving DecidableEq

/-- An argument before `--`. -/
inductive Argument where
  | positional (text : String)
  | option (form : OptionForm)
  /-- Something like an option that is none. -/
  | unknown (text : String)
  deriving DecidableEq

/-- Whether `start` is how `s` starts. -/
def startsWith (start s : List Char) : Bool :=
  s.take start.length == start

/-- What stands before the first `=`, and what after it if there is one. -/
def splitEquals (cs : List Char) : List Char × Option (List Char) :=
  let name := cs.takeWhile (· != '=')
  match cs.drop name.length with
  | [] => (name, none)
  | _ :: value => (name, some value)

/-- A negative number, which is no option. A line feed at the end does not count. -/
def isNegativeNumber : List Char → Bool
  | '-' :: cs =>
    let cs := if cs.getLast? == some '\n' then cs.dropLast else cs
    let whole := cs.takeWhile DecimalDigit.isDigit
    match cs.drop whole.length with
    | [] => !whole.isEmpty
    | '.' :: rest => !rest.isEmpty && rest.all DecimalDigit.isDigit
    | _ => false
  | _ => false

/-- The form of an argument that starts with two dashes. -/
def longForm? (cs : List Char) : Except UsageError (Option OptionForm) :=
  let (name, value) := splitEquals cs
  let exact := Flag.all.filter fun f => f.longName.toList == name
  let flags := if exact.isEmpty then Flag.all.filter fun f => startsWith name f.longName.toList
    else exact
  match flags with
  | [] => .ok none
  | [flag] =>
    match value with
    | none => .ok (some (.bare flag))
    | some v => .ok (some (.long flag (String.ofList v)))
  | _ => .error (.ambiguous (String.ofList cs) flags)

/-- The form of an argument that starts with one dash and the character `c`. -/
def shortForm? (c : Char) (rest : List Char) : Option OptionForm :=
  (Flag.ofLetter? c).map fun flag =>
    match rest with
    | [] => .bare flag
    | '=' :: attached => .short flag attached
    | attached => .short flag attached

/-- The reading of an argument that starts with a dash, given its form if it is an option. -/
def dashed (text : String) : Option OptionForm → Argument
  | some form => .option form
  | none =>
    if isNegativeNumber text.toList || text.toList.contains ' ' then .positional text
    else .unknown text

/-- The reading of an argument before `--`. -/
def argument (text : String) : Except UsageError Argument :=
  match text.toList with
  | '-' :: '-' :: rest => (longForm? ('-' :: '-' :: rest)).map (dashed text)
  | '-' :: c :: rest => .ok (dashed text (shortForm? c rest))
  | _ => .ok (.positional text)

/-! ## Short options put together -/

/-- The last of the options that an argument holds. -/
inductive LastOption where
  | bare (flag : Flag)
  | valued (flag : Flag) (value : String)
  deriving DecidableEq

/-- Takes apart what is attached to a short option: the options before the last, and the last. Each
character is an option for as long as no option takes the rest as its value. -/
def cluster (flag : Flag) : List Char → Except UsageError (List Flag × LastOption)
  | [] => if flag.takesValue then .ok ([], .valued flag "") else .error (.valueIgnored flag "")
  | c :: cs =>
    let attached := String.ofList (c :: cs)
    if flag.takesValue then .ok ([], .valued flag attached)
    else
      match Flag.ofLetter? c, cs with
      | none, _ => .error (.valueIgnored flag attached)
      | some next, [] => .ok ([flag], .bare next)
      | some next, d :: ds => (cluster next (d :: ds)).map fun (flags, last) => (flag :: flags, last)

/-- The options that an argument holds: those before the last, and the last. -/
def OptionForm.flags : OptionForm → Except UsageError (List Flag × LastOption)
  | .bare flag => .ok ([], .bare flag)
  | .long flag value =>
    if flag.takesValue then .ok ([], .valued flag value) else .error (.valueIgnored flag value)
  | .short flag attached => cluster flag attached

/-! ## All arguments -/

/-- What the arguments so far have set. -/
structure Settings where
  source : Option String := none
  outDir : Option String := some "."
  json : Bool := false
  verbosity : Nat := 0
  /-- The arguments that nothing was made of. -/
  extras : List String := []
  deriving DecidableEq

/-- Why the arguments are not read to their end. -/
inductive Stop where
  | help
  | misuse (e : UsageError)
  deriving DecidableEq

/-- Sets an option that has no value. -/
def Settings.set (s : Settings) : Flag → Except Stop Settings
  | .help => .error .help
  | .json => .ok { s with json := true }
  | .verbose => .ok { s with verbosity := s.verbosity + 1 }
  | .outDir => .ok s

/-- Sets options that have no value, in order. -/
def Settings.setAll (s : Settings) : List Flag → Except Stop Settings
  | [] => .ok s
  | flag :: flags => (s.set flag).bind (Settings.setAll · flags)

/-- Sets the directory for the reports. The value `--` names none. -/
def Settings.setOutDir (s : Settings) (value : String) : Settings :=
  { s with outDir := if value == "--" then none else some value }

/-- Sets arguments aside. -/
def Settings.setAside (s : Settings) (texts : List String) : Settings :=
  { s with extras := s.extras ++ texts }

/-- Reads the arguments after `--`; `adjacent` tells that the source stood right before it. -/
def readRest (adjacent : Bool) (s : Settings) : List String → Settings
  | [] => if adjacent then s else s.setAside ["--"]
  | text :: texts =>
    if adjacent then s.setAside (text :: texts)
    else if s.source.isNone then { s with source := some text }.setAside texts
    else s.setAside ("--" :: text :: texts)

/-- Reads the arguments before `--`, then those after it, if there are any. -/
def readArguments (s : Settings) (rest : Option (List String)) :
    List Argument → Except Stop Settings
  | [] => .ok (rest.elim s (readRest false s))
  | .positional text :: args =>
    if s.source.isSome then readArguments (s.setAside [text]) rest args
    else
      let s := { s with source := some text }
      match args with
      | [] => .ok (rest.elim s (readRest true s))
      | _ => readArguments s rest args
  | .unknown text :: args => readArguments (s.setAside [text]) rest args
  | .option form :: args =>
    match form.flags with
    | .error e => .error (.misuse e)
    | .ok (flags, .valued _ value) => do
      readArguments ((← s.setAll flags).setOutDir value) rest args
    | .ok (flags, .bare flag) =>
      if flag.takesValue then
        match args with
        | .positional value :: args => do
          readArguments ((← s.setAll flags).setOutDir value) rest args
        | _ => .error (.misuse (.valueMissing flag))
      else do readArguments (← s.setAll (flags ++ [flag])) rest args

/-- The reading of the arguments before `--`, all of which are looked at before any is acted on. -/
def classify : List String → Except UsageError (List Argument)
  | [] => .ok []
  | text :: texts => do return (← argument text) :: (← classify texts)

/-- What the settings amount to. A missing source is reported before extra arguments. -/
def Settings.invocation (s : Settings) : Invocation :=
  match s.source with
  | none => .misuse .sourceMissing
  | some source =>
    if s.extras.isEmpty then .run ⟨source, s.outDir, s.json, s.verbosity⟩
    else .misuse (.unrecognized s.extras)

end Options

open Options in
/-- What the given arguments ask for. -/
def Invocation.ofArgs (args : List String) : Invocation :=
  let before := args.takeWhile (· != "--")
  let rest := match args.drop before.length with
    | [] => none
    | _ :: rest => some rest
  match classify before with
  | .error e => .misuse e
  | .ok arguments =>
    match readArguments {} rest arguments with
    | .error .help => .help
    | .error (.misuse e) => .misuse e
    | .ok settings => settings.invocation

end Sema
