import Sema.Lexical.Lexeme
import Sema.Text.Position

/-!
# Pieces of a text

A text falls into pieces: tokens with their positions, ignored fragments, and stray characters,
with which no lexeme starts. Nothing of the text is lost (`text_pieces`).
-/

namespace Sema

/-- A token: its kind, its text and the places before and after it. -/
structure Token where
  kind : Terminal
  text : String
  start : Position
  stop : Position
  deriving DecidableEq

/-- The part of the text where a token stands. -/
def Token.span (t : Token) : Span :=
  ⟨t.start, t.stop⟩

/-- A piece of a text. -/
inductive Piece where
  | token (t : Token)
  | ignored (text : List Char)
  | stray (c : Char) (pos : Position)
  deriving DecidableEq

namespace Piece

/-- The characters of a piece. -/
def text : Piece → List Char
  | token t => t.text.toList
  | ignored cs => cs
  | stray c _ => [c]

/-- The token a piece holds. -/
def token? : Piece → Option Token
  | token t => some t
  | _ => none

/-- The stray character a piece holds, and its place. -/
def stray? : Piece → Option (Char × Position)
  | stray c pos => some (c, pos)
  | _ => none

/-- The piece with which the lexeme `c :: cs` of a given class stands at `pos`. -/
def ofLexeme (pos : Position) (cls : LexemeClass) (cs : List Char) : Piece :=
  match cls with
  | .token kind => token ⟨kind, String.ofList cs, pos, pos.advance cs⟩
  | .ignored => ignored cs

end Piece

/-- The pieces of the text `cs` that starts at `pos`. -/
def piecesFrom (pos : Position) : List Char → List Piece
  | [] => []
  | c :: cs =>
    match Lexeme.first? c cs with
    | none => .stray c pos :: piecesFrom (pos.next c) cs
    | some (cls, n) =>
      let lexeme := c :: cs.take n
      Piece.ofLexeme pos cls lexeme :: piecesFrom (pos.advance lexeme) (cs.drop n)
termination_by cs => cs.length
decreasing_by all_goals simp only [List.length_drop, List.length_cons]; omega

/-- The pieces of a text. -/
def pieces (source : List Char) : List Piece :=
  piecesFrom .start source

theorem piecesFrom_nil (pos : Position) : piecesFrom pos [] = [] := by
  rw [piecesFrom]

theorem piecesFrom_of_first? {pos : Position} {c : Char} {cs : List Char} {cls : LexemeClass}
    {n : Nat} (h : Lexeme.first? c cs = some (cls, n)) :
    piecesFrom pos (c :: cs) = Piece.ofLexeme pos cls (c :: cs.take n) ::
      piecesFrom (pos.advance (c :: cs.take n)) (cs.drop n) := by
  rw [piecesFrom, h]

theorem piecesFrom_of_stray {pos : Position} {c : Char} {cs : List Char}
    (h : Lexeme.first? c cs = none) :
    piecesFrom pos (c :: cs) = .stray c pos :: piecesFrom (pos.next c) cs := by
  rw [piecesFrom, h]

theorem text_ofLexeme (pos : Position) (cls : LexemeClass) (cs : List Char) :
    (Piece.ofLexeme pos cls cs).text = cs := by
  cases cls <;> simp [Piece.ofLexeme, Piece.text]

theorem text_piecesFrom (pos : Position) (cs : List Char) :
    (piecesFrom pos cs).flatMap Piece.text = cs := by
  fun_induction piecesFrom pos cs with
  | case1 => rfl
  | case2 pos c cs _ ih => simp [Piece.text, ih]
  | case3 pos c cs cls n _ lexeme ih =>
    rw [List.flatMap_cons, text_ofLexeme, ih]
    simp [lexeme]

/-- The pieces of a text, put together again, are the text. -/
theorem text_pieces (source : List Char) : (pieces source).flatMap Piece.text = source :=
  text_piecesFrom .start source

end Sema
