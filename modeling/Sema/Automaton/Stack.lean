import Sema.Automaton.Table
import Sema.Grammar.Tree

/-!
# The parsing stack

The automaton keeps a stack of the trees it has built, each with the state it led to. With a
lookahead the stack first settles: complete rules are applied as long as the lookahead allows. Then
the lookahead is shifted, or the input is accepted, or neither, which is an error; what was settled
by then stays.
-/

namespace Sema

namespace Automaton

/-- A tree and the state that the automaton is in after it. -/
structure Frame where
  state : State
  tree : Tree

/-- The frames, newest first. -/
abbrev Stack := List Frame

namespace Stack

/-- The state the automaton is in. -/
def state : Stack → State
  | [] => initial
  | frame :: _ => frame.state

/-- Applies a complete rule: its parts are replaced by the phrase they make. -/
def reduce? (rule : Rule) (stack : Stack) : Option Stack :=
  let parts := stack.take rule.body.length
  let below := stack.drop rule.body.length
  (next? (state below) (.phrase rule.category)).map fun s =>
    ⟨s, .node rule (parts.map (·.tree)).reverse⟩ :: below

/-- Applies complete rules as long as the lookahead allows, but at most `n` of them. -/
def settleWithin (la : Lookahead) : Nat → Stack → Stack
  | 0, stack => stack
  | n + 1, stack =>
    match action? (state stack) la with
    | some (.reduce rule) => (reduce? rule stack).elim stack (settleWithin la n)
    | _ => stack

/-- Applies complete rules as long as the lookahead allows. A rule of two parts or more shortens the
stack and fewer than sixteen others can come between two such, so the bound is never reached. -/
def settle (la : Lookahead) (stack : Stack) : Stack :=
  settleWithin la (16 * (stack.length + 2)) stack

/-- Settles with a token and shifts it. On failure the settled stack is given back. -/
def feed (t : Token) (stack : Stack) : Except Stack Stack :=
  let settled := settle (.token t.kind) stack
  match action? (state settled) (.token t.kind) with
  | some (.shift s) => .ok (⟨s, .leaf t⟩ :: settled)
  | _ => .error settled

/-- Settles at the end of the input and gives the tree of the program. On failure the settled stack
is given back. -/
def finish (stack : Stack) : Except Stack Tree :=
  let settled := settle .endOfInput stack
  match action? (state settled) .endOfInput, settled with
  | some .accept, [frame] => .ok frame.tree
  | _, _ => .error settled

/-- The lookaheads with which something could be done. -/
def expected (stack : Stack) : List Lookahead :=
  Automaton.expected (state stack)

end Stack

end Automaton

end Sema
