import Scriptlet.Binary64.Shortest
import Scriptlet.Text.Digits

/-!
# The text of a double

A double is written with the fewest digits that read back as it. Numbers from `1e-4` up to
`1e16` are written positionally and always show a fraction; the others have an exponent,
without a plus sign and without an empty fraction.

## Main definitions

* `Decimal.toText` — how digits and point are laid out
* `Binary64.toText` — the written form of a double
* `Binary64.ofText?` — reads a written number
* `Binary64.ofDigits` — reads whole and fractional digits
-/

namespace Scriptlet

namespace Decimal

/-- Digits around a point: the digits before it, or a zero; those after it, or a zero. -/
def positional (d : Decimal) : List Char :=
  let zeros (n : Int) := List.replicate n.toNat '0'
  let whole := d.digits.take d.point.toNat ++ zeros (d.point - d.digits.length)
  let fraction := zeros (-d.point) ++ d.digits.drop d.point.toNat
  let orZero (cs : List Char) := if cs.isEmpty then ['0'] else cs
  orZero whole ++ '.' :: orZero fraction

/-- The first digit, the others as a fraction if there are any, and the exponent. -/
def scientific (d : Decimal) : List Char :=
  let fraction := if d.digits.length ≤ 1 then [] else '.' :: d.digits.drop 1
  d.digits.take 1 ++ fraction ++ 'e' :: (toString (d.point - 1)).toList

/-- Positional from `1e-4` up to `1e16`, with an exponent elsewhere. -/
def toText (d : Decimal) : List Char :=
  if -4 < d.point ∧ d.point ≤ 16 then d.positional else d.scientific

end Decimal

namespace Binary64

/-- The written form of a double. -/
def toText : Binary64 → String
  | finite negative rank =>
    let magnitude := if rank.val = 0 then ['0', '.', '0'] else (shortest rank).toText
    String.ofList (if negative then '-' :: magnitude else magnitude)
  | infinite negative => if negative then "-inf" else "inf"
  | nan => "NaN"

/-- The double nearest to the number with these digits before and after its point. -/
def ofDigits (negative : Bool) (whole fraction : List Char) : Binary64 :=
  ofDecimal negative (Text.digitsValue (whole ++ fraction)) (-(fraction.length : Int))

/-- The double nearest to `digits * 10 ^ exponent`, where an exponent too far out to matter
is decided by size alone. -/
def ofScaled (negative : Bool) (digits : List Char) (exponent : Int) : Binary64 :=
  let digits := digits.dropWhile (· == '0')
  let point := digits.length + exponent
  if digits.isEmpty ∨ point < -400 then ofRank negative 0
  else if 400 < point then infinite negative
  else ofDecimal negative (Text.digitsValue digits) exponent

/-- Reads an exponent: `e` and digits under an optional sign, or nothing at all. -/
def exponentOfText? : List Char → Option Int
  | [] => some 0
  | mark :: text =>
    if mark == 'e' || mark == 'E' then
      let (negative, digits) := match text with
        | '-' :: digits => (true, digits)
        | '+' :: digits => (false, digits)
        | digits => (false, digits)
      if digits.isEmpty || !digits.all Char.isDigit then none
      else some (if negative then -(Text.digitsValue digits : Int) else Text.digitsValue digits)
    else none

/-- Reads digits with an optional point and an optional exponent. -/
def unsignedOfText? (negative : Bool) (text : List Char) : Option Binary64 :=
  let whole := text.takeWhile Char.isDigit
  let (fraction, rest) := match text.dropWhile Char.isDigit with
    | '.' :: rest => (rest.takeWhile Char.isDigit, rest.dropWhile Char.isDigit)
    | rest => ([], rest)
  if whole.isEmpty && fraction.isEmpty then none
  else (exponentOfText? rest).map fun exponent =>
    ofScaled negative (whole ++ fraction) (exponent - fraction.length)

/-- Reads a number as it is written: decimal text under an optional sign, `inf`, or `NaN`. -/
def ofText? (text : String) : Option Binary64 :=
  if text == "NaN" then some nan
  else
    let (negative, magnitude) := match text.toList with
      | '-' :: magnitude => (true, magnitude)
      | magnitude => (false, magnitude)
    if magnitude == ['i', 'n', 'f'] then some (infinite negative)
    else unsignedOfText? negative magnitude

end Binary64

end Scriptlet
