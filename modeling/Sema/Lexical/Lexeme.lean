import Sema.Lexical.Terminal
import Sema.Text.DecimalDigit

/-!
# Lexemes

The lexeme at the start of a text: a token of some kind, or white space or a comment, which are
ignored. A lexeme is found from its first character and the text after it, and is given by its
class and by how many more characters belong to it; so no lexeme is empty.

* A word, a number and white space reach as far as they can; `d.d` is one number.
* A string ends at the first quote that no backslash precedes, and holds no line feed.
* A line comment ends before the line feed, a block comment with the first `*/`; without one, `/*`
  is two operators.
-/

namespace Sema

/-- What a lexeme is for: it is a token, or it is ignored. -/
inductive LexemeClass where
  | token (kind : Terminal)
  | ignored
  deriving DecidableEq

namespace Lexeme

/-! ## Character classes -/

/-- White space. -/
def isBlank (c : Char) : Bool :=
  c == ' ' || c == '\t' || c == '\x0c' || c == '\r' || c == '\n'

/-- The characters that start a word. -/
def isWordStart (c : Char) : Bool :=
  c.isAlpha || c == '_'

/-- The characters that go on with a word. -/
def isWordPart (c : Char) : Bool :=
  c.isAlphanum || c == '_'

/-! ## Ends of the longer lexemes -/

/-- The length of the longest start of `cs` in which all characters satisfy `p`. -/
def run (p : Char → Bool) (cs : List Char) : Nat :=
  (cs.takeWhile p).length

/-- After an opening quote: the length up to and including the closing one. -/
def stringEnd? : List Char → Option Nat
  | [] => none
  | '"' :: _ => some 1
  | '\n' :: _ => none
  | ['\\'] => none
  | '\\' :: '\n' :: _ => none
  | '\\' :: _ :: cs => (stringEnd? cs).map (· + 2)
  | _ :: cs => (stringEnd? cs).map (· + 1)

/-- After the opening of a block comment: the length up to and including its end. -/
def blockEnd? : List Char → Option Nat
  | [] => none
  | '*' :: '/' :: _ => some 2
  | _ :: cs => (blockEnd? cs).map (· + 1)

/-- After the first digit of a number: its kind and how far it reaches. -/
def number (cs : List Char) : Terminal × Nat :=
  let whole := run DecimalDigit.isDigit cs
  match cs.drop whole with
  | '.' :: d :: rest =>
    if DecimalDigit.isDigit d then (.floatLit, whole + 2 + run DecimalDigit.isDigit rest)
    else (.intLit, whole)
  | _ => (.intLit, whole)

/-- After a slash: how far a comment reaches, if one starts here. -/
def comment? : List Char → Option Nat
  | '/' :: cs => some (1 + run (· != '\n') cs)
  | '*' :: cs => (blockEnd? cs).map (1 + ·)
  | _ => none

/-- The operator or punctuation mark that starts with `c`, the longer one first. -/
def mark? (c : Char) (cs : List Char) : Option (Terminal × Nat) :=
  match cs.head?.bind (Terminal.ofPair? c) with
  | some kind => some (kind, 1)
  | none => (Terminal.ofChar? c).map (·, 0)

/-! ## The lexeme at the start of a text -/

/-- The lexeme that starts with `c` in the text `c :: cs`: its class, and the number of characters
of `cs` that belong to it. -/
def first? (c : Char) (cs : List Char) : Option (LexemeClass × Nat) :=
  if isBlank c then some (.ignored, run isBlank cs)
  else if isWordStart c then
    let n := run isWordPart cs
    some (.token (.ofWord (c :: cs.take n)), n)
  else if DecimalDigit.isDigit c then
    let (kind, n) := number cs
    some (.token kind, n)
  else if c == '"' then (stringEnd? cs).map (.token .stringLit, ·)
  else
    match (if c == '/' then comment? cs else none) with
    | some n => some (.ignored, n)
    | none => (mark? c cs).map fun (kind, n) => (.token kind, n)

end Lexeme

end Sema
