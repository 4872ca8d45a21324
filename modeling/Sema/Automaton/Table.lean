import Sema.Automaton.Declarations
import Sema.Automaton.Statements
import Sema.Automaton.Expressions

/-!
# The table of the parsing automaton

All rows together. The automaton starts in state 0 and accepts in state 1, where a whole program
has been read and the input is at its end.
-/

namespace Sema

namespace Automaton

/-- The rows of all states. -/
def rows : Array Row :=
  (declarations ++ statements ++ expressions).toArray

/-- The row of a state. -/
def row (s : State) : Row :=
  rows.getD s Row.empty

/-- The state in which a parse starts. -/
def initial : State := 0

/-- The state in which a program has been read. -/
def final : State := 1

/-- The state that follows a symbol. -/
def next? (s : State) (x : GrammarSymbol) : Option State :=
  (row s).next? x

/-- What to do in a state with a lookahead. -/
def action? (s : State) (la : Lookahead) : Option Action :=
  if s = final ∧ la = .endOfInput then some .accept else (row s).action? la

/-- The lookaheads with which something can be done in a state, in the order of their names. -/
def expected (s : State) : List Lookahead :=
  Lookahead.byLabel.filter fun la => (action? s la).isSome

end Automaton

end Sema
