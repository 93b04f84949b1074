import Scriptlet.Source
import Scriptlet.Binary64.Text
import Scriptlet.Token.Kind

/-!
# Tokens

A token is a word or sign of a script with the place where it stands. Decisions of grammar
look only at its *content*, the kind and the value.

## Main definitions

* `Token.Value` — what a literal or a word says
* `Token` — kind, value and place
* `Token.toText` — a token in a listing
* `Token.lexeme` — a token as an error message quotes it
* `Token.sameContent`, `Token.sameAs` — agreement in content, and in place as well
-/

namespace Scriptlet

/-- What a literal or a word says. An integer too large for 64 bits is kept as its digits. -/
inductive Token.Value
  | int (value : Int64)
  | wideInt (digits : String)
  | float (value : Binary64)
  | text (value : String)
  deriving DecidableEq, Repr

/-- A word or sign of a script, from `start` up to `stop`. -/
structure Token where
  kind : Token.Kind
  value : Option Token.Value
  start : Position
  stop : Position
  deriving DecidableEq, Repr

namespace Token

namespace Value

/-- The value in writing. -/
def toText : Value → String
  | int n => toString n.toInt
  | wideInt digits => digits
  | float x => x.toText
  | text s => s

/-- Equality of values of one sort, where doubles compare as in arithmetic. -/
def sameAs : Value → Value → Bool
  | int m, int n => m == n
  | wideInt ds, wideInt ds' => ds == ds'
  | float x, float y => x.sameAs y
  | text s, text s' => s == s'
  | _, _ => false

end Value

/-- Agreement of two values that may be missing. -/
def sameValue : Option Value → Option Value → Bool
  | none, none => true
  | some v, some w => v.sameAs w
  | _, _ => false

/-- A token in a listing: its kind, with its value behind a colon if it has one. -/
def toText (t : Token) : String :=
  match t.value with
  | some v => t.kind.label ++ ":" ++ v.toText
  | none => t.kind.label

/-- The text that a token carries, if its value is a text. -/
def text? (t : Token) : Option String :=
  match t.value with
  | some (.text s) => some s
  | _ => none

/-- The text that a token carries, or the empty text. -/
def textOrEmpty (t : Token) : String := t.text?.getD ""

/-- The reserved word that a token is. -/
def keyword? (t : Token) : Option Keyword :=
  if t.kind = .keyword then t.text?.bind Keyword.ofSpelling? else none

/-- Whether a token is this reserved word. -/
def isKeyword (t : Token) (k : Keyword) : Bool := t.keyword? == some k

/-- A token as an error message quotes it: its value, a string between quotes; without a
value the spelling of its kind. -/
def lexeme (t : Token) : String :=
  match t.value with
  | some (.text s) => if t.kind = .string then "\"" ++ s ++ "\"" else s
  | some v => v.toText
  | none => t.kind.symbol?.getD t.kind.label

/-- Whether a token has this kind and this value, wherever it stands. -/
def hasContent (t : Token) (kind : Kind) (value : Option Value) : Bool :=
  t.kind == kind && sameValue t.value value

/-- Whether two tokens agree in content. -/
def sameContent (t u : Token) : Bool := t.hasContent u.kind u.value

/-- Whether two tokens agree in content and stand at the same place. -/
def sameAs (t u : Token) : Bool :=
  t.sameContent u && t.start == u.start && t.stop == u.stop

end Token

end Scriptlet
