import Sema.Lexical.Piece
import Sema.Report.Text

/-!
# The token listing

The tokens of a text as they are listed. The text is lexed as a whole; when a stray character
turns up, it is replaced by a space, so that all positions stay, and the text is lexed again.
-/

namespace Sema

namespace Token

/-- Shows line feeds as the two characters of their escape. -/
def escapeLineFeeds (cs : List Char) : List Char :=
  cs.flatMap fun c => if c = '\n' then ['\\', 'n'] else [c]

/-- A token as it is listed. -/
def listed (t : Token) : ListedToken :=
  ⟨t.kind.label, String.ofList (escapeLineFeeds t.text.toList), t.start.line⟩

end Token

/-- The tokens of a text, and the places of the characters that were replaced to get them. -/
structure Listing where
  replaced : List Position
  tokens : List Token
  deriving DecidableEq

namespace Listing

/-- The tokens of a text without stray characters, or the place of its first stray character. -/
def lexed (source : List Char) : Except Position (List Token) :=
  match (pieces source).findSome? Piece.stray? with
  | some (_, pos) => .error pos
  | none => .ok ((pieces source).filterMap Piece.token?)

/-- Lexes a text, replacing at most `rounds` characters. -/
def within : Nat → List Char → Listing
  | 0, source => ⟨[], (pieces source).filterMap Piece.token?⟩
  | rounds + 1, source =>
    match lexed source with
    | .ok tokens => ⟨[], tokens⟩
    | .error pos =>
      let later := within rounds (source.set pos.offset ' ')
      ⟨pos :: later.replaced, later.tokens⟩

/-- Lexes a text. A space is never stray, so there are no more rounds than characters. -/
def ofSource (source : List Char) : Listing :=
  within source.length source

end Listing

/-- The listing of a text. -/
def tokenListing (source : List Char) : List ListedToken :=
  (Listing.ofSource source).tokens.map Token.listed

end Sema
