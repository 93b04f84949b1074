import Scriptlet.Compiling
import Scriptlet.Tree.Rendering
import Scriptlet.Text.Blank
import Scriptlet.Text.Quoted
import Scriptlet.CommandLine.Arguments

/-!
# What the command does

The command compiles a file, or the lines of its input one by one, each line by itself. What
it does is given here as a function from the contents of files and of the input to what is
written and to the exit code.

## Main definitions

* `Source.report` — what is written about a source
* `Options.log` — what is logged of a step
* `Session.compileFile` — compiles a file
* `Session.respond`, `Session.compileLines` — compiles a line, and lines in turn
* `Session.run` — the whole command
-/

namespace Scriptlet

/-! ### One source -/

/-- A step that compiling a source has passed, with a count for the log. -/
inductive Progress
  | tokenized (tokens : Nat)
  | parsed (statements : Nat)
  | lowered (instructions : Nat)
  deriving DecidableEq, Repr

/-- What is written to the two streams, and whether all went well. -/
structure Report where
  output : String
  errors : String
  ok : Bool
  deriving DecidableEq, Repr

namespace Report

/-- Nothing to report. -/
def silent : Report := ⟨"", "", true⟩

/-- The report of a successful run. -/
def success (output : String) : Report := ⟨output, "", true⟩

/-- The report of an error in a source. -/
def failure (e : Error) : Report := ⟨"", e.render ++ "\n", false⟩

/-- Adds text in front of what goes to the stream for errors. -/
def withLog (log : String) (r : Report) : Report := { r with errors := log ++ r.errors }

end Report

namespace Source

/-- What is written about a source in the given form, with what is logged of each step.
Instructions are counted by the lines of their text. -/
def report (s : Source) (form : Form) (log : Progress → String) : Report :=
  match s.tokens with
  | .error e => .failure (.lex e)
  | .ok tokens => .withLog (log (.tokenized tokens.length)) <|
    if form = .tokens then .success (String.join (tokens.map fun t => t.toText ++ "\n"))
    else match Tree.ofTokens tokens with
      | .error e => .failure (.parse e)
      | .ok tree => .withLog (log (.parsed tree.statementCount)) <|
        if form = .tree then .success (tree.render ++ "\n")
        else
          let text := Instruction.listing tree.code
          .withLog (log (.lowered (text.toList.count '\n'))) (.success text)

end Source

/-! ### The log -/

/-- A step as a line of the log. -/
def Progress.logLine (source : Source) (step : Progress) : String :=
  let (event, counted, count) := match step with
    | tokenized n => ("tokenized", "tokens", n)
    | parsed n => ("parsed", "statements", n)
    | lowered n => ("lowered", "instructions", n)
  "DEBUG ourjs: " ++ event ++ " source=" ++ Text.quote source.name ++ " " ++ counted ++ "=" ++
    toString count ++ "\n"

/-- What is logged of a step: a line if the options ask for the log, and nothing otherwise. -/
def Options.log (options : Options) (source : Source) (step : Progress) : String :=
  if options.verbose then step.logLine source else ""

/-! ### Files and lines -/

/-- Why the content of a file cannot be had. -/
inductive FileFault
  | notFound
  | notAllowed
  | notDirectory
  | isDirectory
  | nameTooLong
  | notUnicode
  | other (reason : String)
  deriving DecidableEq, Repr

/-- A fault in words. -/
def FileFault.description : FileFault → String
  | notFound => "No such file or directory (os error 2)"
  | notAllowed => "Permission denied (os error 13)"
  | notDirectory => "Not a directory (os error 20)"
  | isDirectory => "Is a directory (os error 21)"
  | nameTooLong => "File name too long (os error 36)"
  | notUnicode => "stream did not contain valid UTF-8"
  | other reason => reason

/-- The text that bytes encode, if it is valid UTF-8. -/
def textOfBytes? (bytes : List UInt8) : Option String :=
  String.fromUTF8? ⟨bytes.toArray⟩

/-- Exit code and streams of a run. -/
structure Outcome where
  code : Nat
  output : String
  errors : String
  deriving DecidableEq, Repr

namespace Session

/-- A complaint about something that cannot be read, under the name it is known by. -/
def complaint (name : String) (fault : FileFault) : String :=
  name ++ ": " ++ fault.description ++ "\n"

/-- Compiles a file with the given content, or says why there is none. -/
def compileFile (options : Options) (name : String) (content : Except FileFault (List UInt8)) :
    Outcome :=
  let text := content.bind fun bytes =>
    match textOfBytes? bytes with
    | some text => .ok text
    | none => .error .notUnicode
  match text with
  | .error fault => ⟨2, "", complaint name fault⟩
  | .ok text =>
    let source : Source := ⟨name, text⟩
    let report := source.report options.form (options.log source)
    ⟨if report.ok then 0 else 1, report.output, report.errors⟩

/-- What is written before a line is read. -/
def prompt : String := "ourjs > "

/-- The name of the source that a line of input is. -/
def inputName : String := "<stdin>"

/-- The lines of an input. A line ends at a line feed, and one carriage return before that
is dropped; what follows the last line feed is a line if there is anything. -/
def lines (input : List UInt8) : List (List UInt8) :=
  let feed : UInt8 := 10
  let dropReturn (line : List UInt8) : List UInt8 :=
    if line.getLast? = some 13 then line.dropLast else line
  let pieces := Text.split feed input
  pieces.dropLast.map dropReturn ++ pieces.getLast?.toList.filter (!·.isEmpty)

/-- What is written about a line of input, unless it is no text. A line of white space
passes without a word. -/
def respond (options : Options) (line : List UInt8) : Option Report :=
  (textOfBytes? line).map fun text =>
    let source : Source := ⟨inputName, text⟩
    if text.toList.all Text.isWhiteSpace then .silent
    else source.report options.form (options.log source)

/-- Compiles lines in turn, each after a prompt. An error in one does not keep the next from
being compiled; a line that is no text ends the session. -/
def compileLines (options : Options) : List (List UInt8) → Outcome
  | [] => ⟨0, prompt ++ "\n", ""⟩
  | line :: rest =>
    match respond options line with
    | none => ⟨1, prompt, complaint inputName .notUnicode⟩
    | some report =>
      let outcome := compileLines options rest
      ⟨outcome.code, prompt ++ report.output ++ outcome.output, report.errors ++ outcome.errors⟩

/-- How the command is used. -/
def usage : String :=
  "Usage: ourjs [OPTIONS] [FILE]\n\n" ++
  "  -e, --emit <FORM>  What to print: tokens, ast or ir (the default)\n" ++
  "  -v, --verbose      Log each step\n" ++
  "  -h, --help         Print this text\n" ++
  "  -V, --version      Print the version\n"

/-- The outcome of a request, given what the files contain and the input. -/
def run (request : Request) (content : String → Except FileFault (List UInt8))
    (input : List UInt8) : Outcome :=
  match request with
  | .help => ⟨0, usage, ""⟩
  | .version => ⟨0, "ourjs 0.1.0\n", ""⟩
  | .compile options =>
    match options.file with
    | some name => compileFile options name (content name)
    | none => compileLines options (lines input)

end Session

end Scriptlet
