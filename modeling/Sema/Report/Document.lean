/-!
# Documents

Structured values for other programs, and their text on one line. Only printable ASCII characters
stand for themselves in it; all others are written by their UTF-16 units.
-/

namespace Sema

/-- A structured value. The fields of a record keep their order. -/
inductive Document where
  | null
  | number (n : Int)
  | text (s : String)
  | list (items : List Document)
  | record (fields : List (String × Document))

namespace Document

/-- A number below 65536 as four digits in base sixteen. -/
def hex4 (n : Nat) : List Char :=
  let digits := Nat.toDigits 16 n
  List.replicate (4 - digits.length) '0' ++ digits

/-- The escape of one UTF-16 unit. -/
def unit (n : Nat) : List Char :=
  ['\\', 'u'] ++ hex4 n

/-- The escape of a character: its UTF-16 units. -/
def units (c : Char) : List Char :=
  let n := c.toNat
  if n < 0x10000 then unit n
  else unit (0xD800 + (n - 0x10000) / 0x400) ++ unit (0xDC00 + (n - 0x10000) % 0x400)

/-- A character as it stands in a text. -/
def escape (c : Char) : List Char :=
  if c = '"' || c = '\\' then ['\\', c]
  else if ' ' ≤ c && c ≤ '~' then [c]
  else if c = '\n' then ['\\', 'n']
  else if c = '\r' then ['\\', 'r']
  else if c = '\t' then ['\\', 't']
  else if c = '\x08' then ['\\', 'b']
  else if c = '\x0c' then ['\\', 'f']
  else units c

/-- A text between double quotes. -/
def quoted (s : String) : String :=
  String.ofList (['"'] ++ s.toList.flatMap escape ++ ['"'])

mutual

/-- The text of a value. -/
def render : Document → String
  | null => "null"
  | number n => toString n
  | text s => quoted s
  | list items => "[" ++ ", ".intercalate (renderItems items) ++ "]"
  | record fields => "\x7b" ++ ", ".intercalate (renderFields fields) ++ "\x7d"

def renderItems : List Document → List String
  | [] => []
  | d :: ds => render d :: renderItems ds

def renderFields : List (String × Document) → List String
  | [] => []
  | (name, d) :: rest => (quoted name ++ ": " ++ render d) :: renderFields rest

end

end Document

end Sema
