import Sema.Grammar.Rule

/-!
# Rows of the parsing automaton

A state of the automaton stands for the rules that may be in progress. Its row says which state
follows a token or a phrase, and which rule, if any, is complete there. A complete rule is applied
when the lookahead may follow its category.
-/

namespace Sema

namespace Automaton

/-- The states of the automaton, by number. -/
abbrev State := Nat

/-- What is known in one state. -/
structure Row where
  /-- The states that follow a token. -/
  shifts : List (Terminal × State)
  /-- The states that follow a phrase. -/
  gotos : List (Category × State)
  /-- The rule that is complete. -/
  complete : Option Rule

/-- What the automaton does in a state with a lookahead. -/
inductive Action where
  | shift (next : State)
  | reduce (rule : Rule)
  | accept
  deriving DecidableEq

namespace Row

/-- The row of a state in which nothing can be done. -/
def empty : Row := ⟨[], [], none⟩

/-- The state that follows a symbol. -/
def next? (row : Row) : GrammarSymbol → Option State
  | .terminal kind => row.shifts.lookup kind
  | .phrase category => row.gotos.lookup category

/-- The complete rule, if the lookahead may follow its category. -/
def reduction? (row : Row) (la : Lookahead) : Option Rule :=
  row.complete.filter fun rule => rule.category.allows la

/-- A token is shifted where it can be; otherwise a complete rule is applied. -/
def action? (row : Row) (la : Lookahead) : Option Action :=
  match la with
  | .token kind =>
    match row.shifts.lookup kind with
    | some next => some (.shift next)
    | none => (row.reduction? la).map .reduce
  | .endOfInput => (row.reduction? la).map .reduce

end Row

end Automaton

end Sema
