import Scriptlet.CommandLine.Session

/-!
# The command

Reads files and lines and writes what `Session` says. Lines are answered one at a time, so
that the command can be talked to.
-/

namespace Scriptlet.Command

/-- The fault that an error of the system stands for. The system's number may come negated. -/
def faultOf (e : IO.Error) : FileFault :=
  let is (number code : UInt32) : Bool := code = number || code = 0 - number
  match e with
  | .noFileOrDirectory .. => .notFound
  | .permissionDenied _ code _ => if is 13 code then .notAllowed else .other (toString e)
  | .inappropriateType _ code _ => if is 20 code then .notDirectory else .isDirectory
  | .invalidArgument _ code _ => if is 36 code then .nameTooLong else .other (toString e)
  | _ => .other (toString e)

/-- The content of a file. -/
def readFile (name : String) : IO (Except FileFault (List UInt8)) := do
  match ← (IO.FS.readBinFile name).toBaseIO with
  | .ok content => return .ok content.toList
  | .error e => return .error (faultOf e)

/-- The bytes of the input up to the next line feed, or to its end. -/
partial def readChunk (input : IO.FS.Stream) (sofar : List UInt8) : IO (List UInt8) := do
  match (← input.read 1).toList with
  | [] => return sofar.reverse
  | byte :: _ =>
    if byte = 10 then
      return (byte :: sofar).reverse
    else
      readChunk input (byte :: sofar)

/-- Answers lines of the input until it ends. -/
partial def converse (options : Options) : IO UInt32 := do
  IO.print Session.prompt
  (← IO.getStdout).flush
  match Session.lines (← readChunk (← IO.getStdin) []) with
  | [] =>
    IO.println ""
    return 0
  | line :: _ =>
    match Session.respond options line with
    | none =>
      IO.eprint (Session.complaint Session.inputName .notUnicode)
      return 1
    | some report =>
      IO.print report.output
      IO.eprint report.errors
      converse options

/-- Carries out a request. -/
def carryOut (request : Request) : IO UInt32 := do
  match request with
  | .compile ⟨none, form, verbose⟩ => converse ⟨none, form, verbose⟩
  | .compile ⟨some name, form, verbose⟩ =>
    let content ← readFile name
    let outcome := Session.compileFile ⟨some name, form, verbose⟩ name content
    IO.print outcome.output
    IO.eprint outcome.errors
    return outcome.code.toUInt32
  | .help | .version =>
    let outcome := Session.run request (fun _ => .error .notFound) []
    IO.print outcome.output
    return outcome.code.toUInt32

end Scriptlet.Command

/-- Reads the arguments and does what they ask for. -/
def main (arguments : List String) : IO UInt32 := do
  match Scriptlet.Request.ofArguments? arguments with
  | some request => Scriptlet.Command.carryOut request
  | none =>
    IO.eprint Scriptlet.Session.usage
    return 2
