import Scriptlet.Text.Unprintable

/-!
# Quoted texts

A quoted text stands between double quotes on one line. Quotes and backslashes are guarded
by a backslash, and what cannot be seen is spelled out.

## Main definitions

* `Text.escape` — a character as it is written between quotes
* `Text.quote` — a text between quotes
-/

namespace Scriptlet.Text

/-- A character as it is written between quotes: an unprintable one by its code point in
hexadecimal digits. -/
def escape (c : Char) : List Char :=
  if c = '"' ∨ c = '\\' then ['\\', c]
  else if c = '\n' then ['\\', 'n']
  else if c = '\r' then ['\\', 'r']
  else if c = '\t' then ['\\', 't']
  else if c = '\x00' then ['\\', '0']
  else if isUnprintable c then
    ['\\', 'u', '\x7b'] ++ Nat.toDigits 16 c.toNat ++ ['\x7d']
  else [c]

/-- A text between quotes. -/
def quote (text : String) : String :=
  String.ofList ('"' :: text.toList.flatMap escape ++ ['"'])

end Scriptlet.Text
