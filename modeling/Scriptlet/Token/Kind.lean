/-!
# Kinds of tokens and reserved words

## Main definitions

* `Token.Kind` — what sort of word or sign a token is
* `Token.Kind.label` — the name a kind has in listings
* `Token.Kind.symbol?` — the spelling of the kinds that have only one
* `Keyword` — the reserved words
-/

namespace Scriptlet

namespace Token

/-- What sort of word or sign a token is. A `separator` stands between statements, and
`endOfInput` after the last token. -/
inductive Kind
  | int | float | string | identifier | keyword
  | plus | minus | times | divide
  | assign | equal | notEqual | less | greater | lessEqual | greaterEqual
  | leftParen | rightParen | leftCurl | rightCurl | comma
  | not | and | or
  | separator | endOfInput
  deriving DecidableEq, Repr

namespace Kind

/-- Every kind once. -/
def all : List Kind :=
  [int, float, string, identifier, keyword, plus, minus, times, divide, assign, equal,
    notEqual, less, greater, lessEqual, greaterEqual, leftParen, rightParen, leftCurl,
    rightCurl, comma, not, and, or, separator, endOfInput]

/-- The name of a kind in listings. -/
def label : Kind → String
  | int => "INT"
  | float => "FLOAT"
  | string => "STRING"
  | identifier => "IDENTIFIER"
  | keyword => "KEYWORD"
  | plus => "PLUS"
  | minus => "MINUS"
  | times => "MUL"
  | divide => "DIV"
  | assign => "EQ"
  | equal => "EE"
  | notEqual => "NE"
  | less => "LT"
  | greater => "GT"
  | lessEqual => "LTE"
  | greaterEqual => "GTE"
  | leftParen => "LPAREN"
  | rightParen => "RPAREN"
  | leftCurl => "LCURL"
  | rightCurl => "RCURL"
  | comma => "COMMA"
  | not => "NOT"
  | and => "AND"
  | or => "OR"
  | separator => "NEWLINE"
  | endOfInput => "EOF"

/-- The kind with this name. -/
def ofLabel? (name : String) : Option Kind := all.find? (·.label == name)

/-- How a kind is spelled, or spoken of where its spelling cannot be seen. Literals and words
have no fixed spelling. -/
def symbol? : Kind → Option String
  | int | float | string | identifier | keyword => none
  | plus => some "+"
  | minus => some "-"
  | times => some "*"
  | divide => some "/"
  | assign => some "="
  | equal => some "=="
  | notEqual => some "!="
  | less => some "<"
  | greater => some ">"
  | lessEqual => some "<="
  | greaterEqual => some ">="
  | leftParen => some "("
  | rightParen => some ")"
  | leftCurl => some "\x7b"
  | rightCurl => some "\x7d"
  | comma => some ","
  | not => some "!"
  | and => some "&&"
  | or => some "||"
  | separator => some "newline"
  | endOfInput => some "end of input"

end Kind

end Token

/-- The reserved words. -/
inductive Keyword
  | letWord | ifWord | elseWord | whileWord | forWord | funcWord
  deriving DecidableEq, Repr

namespace Keyword

/-- The reserved words in the order of their table. -/
def all : List Keyword := [letWord, ifWord, elseWord, whileWord, forWord, funcWord]

/-- How a reserved word is spelled. -/
def spelling : Keyword → String
  | letWord => "let"
  | ifWord => "if"
  | elseWord => "else"
  | whileWord => "while"
  | forWord => "for"
  | funcWord => "func"

/-- The reserved word with this spelling. -/
def ofSpelling? (word : String) : Option Keyword := all.find? (·.spelling == word)

theorem ofSpelling?_spelling (k : Keyword) : ofSpelling? k.spelling = some k := by
  cases k <;> decide

/-- A word is a keyword only in its one spelling. -/
theorem ofSpelling?_eq_some_iff {word : String} {k : Keyword} :
    ofSpelling? word = some k ↔ word = k.spelling := by
  constructor
  · intro h
    unfold ofSpelling? at h
    exact (beq_iff_eq.mp (List.find?_some h :)).symm
  · rintro rfl
    exact ofSpelling?_spelling k

end Keyword

end Scriptlet
