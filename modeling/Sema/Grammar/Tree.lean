import Sema.Grammar.Rule
import Sema.Lexical.Piece

/-!
# Derivation trees

A derivation tree has tokens at its leaves and a rule at each inner node. A tree is well formed
when each node has the parts that its rule asks for. A tree covers the text from the start of its
first token to the end of its last one; a phrase without tokens covers nothing.
-/

namespace Sema

/-- A derivation tree. -/
inductive Tree where
  | leaf (t : Token)
  | node (rule : Rule) (children : List Tree)

namespace Tree

/-- The symbol that a tree derives. -/
def symbol : Tree → GrammarSymbol
  | leaf t => .terminal t.kind
  | node rule _ => .phrase rule.category

mutual

/-- Whether every node of a tree has the parts its rule asks for. -/
def WellFormed : Tree → Prop
  | leaf _ => True
  | node rule children => children.map symbol = rule.body ∧ AllWellFormed children

def AllWellFormed : List Tree → Prop
  | [] => True
  | t :: ts => WellFormed t ∧ AllWellFormed ts

end

mutual

/-- The tokens at the leaves of a tree, from left to right. -/
def leaves : Tree → List Token
  | leaf t => [t]
  | node _ children => leavesAll children

def leavesAll : List Tree → List Token
  | [] => []
  | t :: ts => leaves t ++ leavesAll ts

end

mutual

/-- The place where a tree's text starts. -/
def start? : Tree → Option Position
  | leaf t => some t.start
  | node _ children => startAll? children

def startAll? : List Tree → Option Position
  | [] => none
  | t :: ts =>
    match start? t with
    | some p => some p
    | none => startAll? ts

end

mutual

/-- The place where a tree's text stops. -/
def stop? : Tree → Option Position
  | leaf t => some t.stop
  | node _ children => stopAll? children

def stopAll? : List Tree → Option Position
  | [] => none
  | t :: ts =>
    match stopAll? ts with
    | some p => some p
    | none => stop? t

end

end Tree

end Sema
