/-!
# Instructions

Intermediate code is a list of instructions, each a line of text. Values pass from one to
the next in numbered temporaries, and jumps go to numbered labels.

## Main definitions

* `Temp`, `Label` — numbered places for values and targets of jumps
* `Instruction` — one line of intermediate code
* `Instruction.toText`, `Instruction.listing` — an instruction, and code, as text
-/

namespace Scriptlet

/-- A place for a value while code runs. -/
structure Temp where
  number : Nat
  deriving DecidableEq, Repr

/-- A place in code that a jump can go to. -/
structure Label where
  number : Nat
  deriving DecidableEq, Repr

/-- The text of a temporary. -/
def Temp.toText (t : Temp) : String := "t" ++ toString t.number

/-- The text of a label. -/
def Label.toText (l : Label) : String := "L" ++ toString l.number

/-- One line of intermediate code. -/
inductive Instruction
  | load (dest : Temp) (value : String)
  | store (name : String) (source : Temp)
  | binary (dest left : Temp) (operator : String) (right : Temp)
  | not (dest operand : Temp)
  | negate (dest operand : Temp)
  | jumpUnless (condition : Temp) (target : Label)
  | jump (target : Label)
  | label (label : Label)
  | call (callee : String) (arguments : List Temp)
  | function (name : String)
  | return
  deriving DecidableEq, Repr

namespace Instruction

/-- The arguments of a call, each after a blank and with a comma between two. -/
def argumentsText : List Temp → String
  | [] => ""
  | arguments => " " ++ String.intercalate ", " (arguments.map Temp.toText)

/-- The text of an instruction, without a line feed. -/
def toText : Instruction → String
  | load dest value => dest.toText ++ " = " ++ value
  | store name source => name ++ " = " ++ source.toText
  | binary dest left operator right =>
    dest.toText ++ " = " ++ left.toText ++ " " ++ operator ++ " " ++ right.toText
  | not dest operand => dest.toText ++ " = !" ++ operand.toText
  | negate dest operand => dest.toText ++ " = uminus " ++ operand.toText
  | jumpUnless condition target => "if !" ++ condition.toText ++ " goto " ++ target.toText
  | jump target => "goto " ++ target.toText
  | label l => l.toText ++ ":"
  | call callee arguments => "call " ++ callee ++ argumentsText arguments
  | function name => name ++ ":"
  | .return => "ret"

/-- Code as text, one instruction a line. -/
def listing (code : List Instruction) : String :=
  String.join (code.map fun i => i.toText ++ "\n")

end Instruction

end Scriptlet
