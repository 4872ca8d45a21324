import Sema.Diagnostics.Diagnostic
import Sema.Grammar.Category
import Sema.Lexical.Piece

/-!
# Repairs

What a recovering parse does about an error, with what it then reports. A repair inserts a missing
closing mark, goes back to where the token fits, drops the token, or closes at the end of the input
what is still open.
-/

namespace Sema

/-- The marks that a repair may insert. -/
inductive Closer where
  | brace
  | semicolon
  | paren
  deriving DecidableEq

namespace Closer

/-- The kind of token that a mark is. -/
def terminal : Closer → Terminal
  | brace => .rbrace
  | semicolon => .semicolon
  | paren => .rpar

/-- The text of a mark. -/
def text : Closer → String
  | brace => "\x7d"
  | semicolon => ";"
  | paren => ")"

/-- The inserted token. Having no place of its own in the source, it takes a given one. -/
def token (k : Closer) (place : Span) : Token :=
  ⟨k.terminal, k.text, place.start, place.stop⟩

end Closer

/-- What was done about one error. -/
inductive Repair where
  /-- A stray character was skipped. -/
  | skipped (c : Char) (pos : Position)
  /-- A missing mark was inserted before a token. -/
  | inserted (mark : Closer) (t : Token)
  /-- A number of frames was given up, after which the token fitted. -/
  | unwound (depth : Nat) (t : Token) (expected : List Lookahead)
  /-- The token was left out. -/
  | dropped (t : Token) (expected : List Lookahead)
  /-- Missing marks were inserted at the end of the input. -/
  | closed (marks : List Closer) (pos : Position)
  /-- The input could not be completed. -/
  | abandoned (pos : Position) (expected : List Lookahead)
  deriving DecidableEq

namespace Repair

/-- A syntax error at a place. -/
def syntaxError (pos : Position) (message : String) : Diagnostic :=
  { code := .syntaxError, message, line := some pos.line, column := some pos.column }

/-- The message on something that does not fit, with what would. -/
def mismatch (found : String) (expected : List Lookahead) : String :=
  "mismatched input " ++ found ++ " expecting \x7b" ++
    ", ".intercalate (expected.map (·.label)) ++ "\x7d"

/-- A token as messages show it. -/
def shown (t : Token) : String :=
  "'" ++ t.text ++ "'"

/-- What a repair reports. -/
def diagnostics : Repair → List Diagnostic
  | skipped c pos =>
    [{ code := .lexicalError, message := s!"token recognition error at: '{c}'",
       line := some pos.line, column := some pos.column }]
  | inserted mark t => [syntaxError t.start s!"missing '{mark.text}' at {shown t}"]
  | unwound _ t expected => [syntaxError t.start (mismatch (shown t) expected)]
  | dropped t expected => [syntaxError t.start (mismatch (shown t) expected)]
  | closed marks pos => marks.map fun mark => syntaxError pos s!"missing '{mark.text}' at <EOF>"
  | abandoned pos expected => [syntaxError pos (mismatch "<EOF>" expected)]

/-- What a list of repairs reports: each diagnostic once, in the order of its first report. -/
def report (repairs : List Repair) : List Diagnostic :=
  (repairs.flatMap diagnostics).foldl (fun ds d => if d ∈ ds then ds else ds ++ [d]) []

end Repair

end Sema
