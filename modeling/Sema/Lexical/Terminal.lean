/-!
# Terminals

The kinds of token: keywords, operators, punctuation, names and literals, each with the name under
which it is listed and, where its text is fixed, with that text.
-/

namespace Sema

/-- The kinds of token. -/
inductive Terminal where
  | const | void | int | float | double | string
  | ifKw | elseKw | whileKw | forKw | returnKw
  | or | and | eq | ne | le | ge | lt | gt
  | plus | minus | star | slash | bang | equal
  | semicolon | comma | lpar | rpar | lbrace | rbrace
  | name | floatLit | intLit | stringLit
  deriving DecidableEq

namespace Terminal

/-- The name under which tokens of a kind are listed. -/
def label : Terminal → String
  | const => "CONST" | void => "VOID" | int => "INT" | float => "FLOAT" | double => "DOUBLE"
  | string => "STRING" | ifKw => "IF" | elseKw => "ELSE" | whileKw => "WHILE" | forKw => "FOR"
  | returnKw => "RETURN" | or => "OR" | and => "AND" | eq => "EQ" | ne => "NE" | le => "LE"
  | ge => "GE" | lt => "LT" | gt => "GT" | plus => "PLUS" | minus => "MINUS" | star => "STAR"
  | slash => "SLASH" | bang => "BANG" | equal => "EQUAL" | semicolon => "SEMICOLON"
  | comma => "COMMA" | lpar => "LPAR" | rpar => "RPAR" | lbrace => "LBRACE" | rbrace => "RBRACE"
  | name => "NAME" | floatLit => "FLOAT_LIT" | intLit => "INT_LIT" | stringLit => "STRING_LIT"

/-- The words that are not names. -/
def keywords : List (List Char × Terminal) :=
  [("const".toList, const), ("void".toList, void), ("int".toList, int), ("float".toList, float),
    ("double".toList, double), ("string".toList, string), ("if".toList, ifKw),
    ("else".toList, elseKw), ("while".toList, whileKw), ("for".toList, forKw),
    ("return".toList, returnKw)]

/-- The kind of a word: a keyword if the whole word is one, else a name. -/
def ofWord (word : List Char) : Terminal :=
  (keywords.lookup word).getD name

/-- The operators of two characters. -/
def ofPair? : Char → Char → Option Terminal
  | '|', '|' => some or
  | '&', '&' => some and
  | '=', '=' => some eq
  | '!', '=' => some ne
  | '<', '=' => some le
  | '>', '=' => some ge
  | _, _ => none

/-- The operators and punctuation marks of one character. -/
def ofChar? : Char → Option Terminal
  | '<' => some lt
  | '>' => some gt
  | '+' => some plus
  | '-' => some minus
  | '*' => some star
  | '/' => some slash
  | '!' => some bang
  | '=' => some equal
  | ';' => some semicolon
  | ',' => some comma
  | '(' => some lpar
  | ')' => some rpar
  | '\x7b' => some lbrace
  | '\x7d' => some rbrace
  | _ => none

end Terminal

end Sema
