import Sema.Automaton.Stack
import Sema.Parsing.Repair

/-!
# Recovering parse

A parse that does not stop at errors. Stray characters are skipped. For a token that does not fit,
the first of these that helps is done:

* a missing `;` or `)` is inserted before it;
* for a `;` or a closing brace, frames are given up until it fits;
* it is dropped.

At the end of the input the constructs that are still open are closed. Where that fails there is no
tree.
-/

namespace Sema

open Automaton

/-- The outcome of a recovering parse: what was repaired, and the tree if the input could be
completed. -/
structure Recovered where
  repairs : List Repair
  tree : Option Tree

namespace Parsing

/-! ## A token that does not fit -/

/-- The marks that may be inserted before a token, in the order in which they are tried. -/
def insertable : List Closer :=
  [.semicolon, .paren]

/-- Inserts a mark before the token, if the mark fits and the token fits after it. -/
def insert? (t : Token) (stack : Stack) (mark : Closer) : Option Stack :=
  match stack.feed (mark.token t.span) with
  | .ok marked => (marked.feed t).toOption
  | .error _ => none

/-- Inserts the first mark that helps. -/
def insertion? (t : Token) (stack : Stack) : Option (Closer × Stack) :=
  insertable.findSome? fun mark => (insert? t stack mark).map (mark, ·)

/-- The tokens for which frames are given up: those that end a statement or a block. -/
def isBoundary (t : Token) : Bool :=
  t.kind == .semicolon || t.kind == .rbrace

/-- Gives up frames, one at least, until the token fits. -/
def unwind? (t : Token) : Stack → Option (Nat × Stack)
  | [] => none
  | _ :: below =>
    match Stack.feed t below with
    | .ok fed => some (1, fed)
    | .error _ => (unwind? t below).map fun (depth, fed) => (depth + 1, fed)

/-- Repairs the error that the token makes on a settled stack. -/
def repair (t : Token) (stack : Stack) : Repair × Stack :=
  match insertion? t stack with
  | some (mark, fed) => (.inserted mark t, fed)
  | none =>
    match (if isBoundary t then unwind? t stack else none) with
    | some (depth, fed) => (.unwound depth t stack.expected, fed)
    | none => (.dropped t stack.expected, stack)

/-- Takes a token, repairing the error it may make. -/
def take (t : Token) (stack : Stack) : List Repair × Stack :=
  match stack.feed t with
  | .ok fed => ([], fed)
  | .error settled =>
    let (done, next) := repair t settled
    ([done], next)

/-! ## The end of the input -/

/-- The marks that may be inserted at the end, in the order in which they are tried. -/
def closers : List Closer :=
  [.brace, .semicolon, .paren]

/-- The number of times the end of the input is tried. -/
def closingRounds : Nat := 64

/-- Inserts marks, all at the place `last`, until the input is complete. -/
def closeWithin (last : Span) : Nat → Stack → Option (List Closer × Tree)
  | 0, _ => none
  | n + 1, stack =>
    match stack.finish with
    | .ok tree => some ([], tree)
    | .error _ =>
      match closers.findSome? fun k => (stack.feed (k.token last)).toOption.map (k, ·) with
      | some (k, fed) => (closeWithin last n fed).map fun (ks, tree) => (k :: ks, tree)
      | none => none

/-- Ends the parse, closing what is open; `last` is the place of the last token. -/
def close (last : Span) (stack : Stack) : Recovered :=
  match stack.finish with
  | .ok tree => ⟨[], some tree⟩
  | .error settled =>
    match closeWithin last closingRounds settled with
    | some (marks, tree) => ⟨[.closed marks last.start], some tree⟩
    | none => ⟨[.abandoned last.start settled.expected], none⟩

/-! ## The whole parse -/

/-- Parses the pieces that follow the frames of `stack`; `last` is the place of the token before
them. -/
def recoverFrom (last : Span) (stack : Stack) : List Piece → Recovered
  | [] => close last stack
  | .ignored _ :: rest => recoverFrom last stack rest
  | .stray c pos :: rest =>
    let later := recoverFrom last stack rest
    ⟨.skipped c pos :: later.repairs, later.tree⟩
  | .token t :: rest =>
    let (done, next) := take t stack
    let later := recoverFrom t.span next rest
    ⟨done ++ later.repairs, later.tree⟩

/-- Parses the pieces of a text, repairing errors. -/
def recover (ps : List Piece) : Recovered :=
  recoverFrom ⟨.start, .start⟩ [] ps

end Parsing

end Sema
