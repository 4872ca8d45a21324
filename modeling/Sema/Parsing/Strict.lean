import Sema.Automaton.Stack

/-!
# Strict parsing

The derivation tree of a text that follows the grammar. The first stray character or token out of
place is an error.
-/

namespace Sema

open Automaton

/-- Why a text does not follow the grammar. At the end of the input, the place is that of the last
token. -/
inductive ParseError where
  | strayCharacter (c : Char) (pos : Position)
  | unexpectedToken (t : Token) (expected : List Lookahead)
  | unexpectedEnd (pos : Position) (expected : List Lookahead)
  deriving DecidableEq

namespace Parsing

/-- Parses the pieces that follow the frames of `stack`; `last` is the place of the token before
them. -/
def strictFrom (last : Position) (stack : Stack) : List Piece → Except ParseError Tree
  | [] =>
    match stack.finish with
    | .ok tree => .ok tree
    | .error settled => .error (.unexpectedEnd last settled.expected)
  | .ignored _ :: rest => strictFrom last stack rest
  | .stray c pos :: _ => .error (.strayCharacter c pos)
  | .token t :: rest =>
    match stack.feed t with
    | .ok next => strictFrom t.start next rest
    | .error settled => .error (.unexpectedToken t settled.expected)

/-- Parses the pieces of a text. -/
def strict (ps : List Piece) : Except ParseError Tree :=
  strictFrom .start [] ps

end Parsing

end Sema
