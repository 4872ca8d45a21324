import Sema.Calls.Checking
import Sema.Calls.Reading

/-!
# Analysis on a host

A host has room for so many calls within each other. Where the source nests deeper than that, the
analysis ends for want of room; nothing in it takes notice of that, so that this is its outcome.
What the host keeps for the calls that are not of a walk, none of which is within another of its
kind, is not part of the room.
-/

namespace Sema

/-- What a host gives to the analysis of a source. -/
structure Host where
  /-- How many calls may be within each other, from that of the analysis on. -/
  room : Nat
  /-- How many calls within each other it takes to find the tokens of a source and to parse them,
  errors being repaired. -/
  parsing : List Char → Nat
  /-- Whether the calls that make up a list are within a call of their own. -/
  listCalls : Bool

namespace Analysis

/-- The calls of reading the tree of a source, if there is one. -/
def readingCalls (host : Host) (source : List Char) : List Calls :=
  match (Parsing.recover (pieces source)).tree with
  | none => []
  | some tree => [Reading.programCalls host.listCalls tree]

/-- The calls of checking the program of a source, if there is one. -/
def checkingCalls (source : List Char) : List Calls :=
  match Parsed.ofSource source with
  | .ok ⟨some p, _⟩ => [Checking.programCalls p]
  | _ => []

/-- The calls of analyzing a source. -/
def calls (host : Host) (source : List Char) : Calls :=
  .call (.call (Calls.nested (host.parsing source) ++ readingCalls host source) ::
    checkingCalls source)

/-- Analyzes a source on a host. -/
def ofSourceOn (host : Host) (source : List Char) : Except Halt Analysis :=
  match (calls host source).run host.room with
  | .error .noRoom => .error .noRoom
  | _ => (ofSource source).mapError .raised

end Analysis

/-- Whether a host has room for all calls of analyzing a source. -/
def Host.HasRoom (host : Host) (source : List Char) : Prop :=
  (Analysis.calls host source).depth ≤ host.room

instance (host : Host) (source : List Char) : Decidable (host.HasRoom source) :=
  inferInstanceAs (Decidable (_ ≤ _))

end Sema
