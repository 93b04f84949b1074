/-!
# Arguments of the command

The command compiles the file it is given, or else the lines it reads. Options may stand
before and after the file.

* `-e FORM`, `--emit FORM` — what to print: `tokens`, `ast` or `ir`; also `--emit=FORM`,
  `-eFORM` and `-e=FORM`
* `-v`, `--verbose` — log each step
* `-h`, `--help` and `-V`, `--version` — print a text instead

Short options can share one dash, and after `--` everything is a file. No option, help and
version apart, may be given twice, and there is one file at most.

## Main definitions

* `Form` — what to print for a source
* `Options` — what the command is to do
* `Request.ofArguments?` — the request that arguments make, if they make sense
-/

namespace Scriptlet

/-- What to print for a source. -/
inductive Form
  | tokens | tree | code
  deriving DecidableEq, Repr

/-- The form with this name. -/
def Form.ofName? : String → Option Form
  | "tokens" => some .tokens
  | "ast" => some .tree
  | "ir" => some .code
  | _ => none

/-- What the command is to do: compile a file, or the lines it reads if there is none. -/
structure Options where
  file : Option String
  form : Form
  verbose : Bool
  deriving DecidableEq, Repr

/-- What arguments ask for. -/
inductive Request
  | compile (options : Options)
  | help
  | version
  deriving DecidableEq, Repr

/-- The options given so far. -/
structure Given where
  file : Option String
  form : Option Form
  verbose : Bool
  deriving DecidableEq, Repr

namespace Given

/-- No options at all. -/
def nothing : Given := ⟨none, none, false⟩

/-- Adds a file, which needs a name, to options without one. -/
def addFile (g : Given) (name : String) : Option Given :=
  if name.isEmpty ∨ g.file.isSome then none else some { g with file := some name }

/-- Adds a form by its name to options without one. -/
def addForm (g : Given) (name : String) : Option Given :=
  if g.form.isSome then none
  else (Form.ofName? name).map fun form => { g with form := some form }

/-- Adds logging to options without it. -/
def addVerbose (g : Given) : Option Given :=
  if g.verbose then none else some { g with verbose := true }

/-- The options, where code is printed unless another form is asked for. -/
def options (g : Given) : Options := ⟨g.file, g.form.getD .code, g.verbose⟩

end Given

/-- What short options behind one dash come to: options added, a form whose name is the next
argument, or a request for a text. -/
inductive Cluster
  | read (given : Given)
  | wantsForm (given : Given)
  | asks (request : Request)

/-- Reads short options behind one dash. The name of a form takes up all that follows it. -/
def Cluster.ofFlags? (g : Given) : List Char → Option Cluster
  | [] => some (.read g)
  | 'v' :: flags => g.addVerbose.bind (ofFlags? · flags)
  | 'e' :: '=' :: name => (g.addForm (String.ofList name)).map .read
  | ['e'] => some (.wantsForm g)
  | 'e' :: name => (g.addForm (String.ofList name)).map .read
  | 'h' :: _ => some (.asks .help)
  | 'V' :: _ => some (.asks .version)
  | _ => none

namespace Request

/-- Goes on reading arguments after some options. -/
def goOn (g : Given) : List String → Option Request
  | [] => some (.compile g.options)
  | "--" :: files => (files.foldlM Given.addFile g).map (.compile ·.options)
  | "--help" :: _ => some .help
  | "--version" :: _ => some .version
  | "--verbose" :: rest => g.addVerbose.bind (goOn · rest)
  | "--emit" :: name :: rest => (g.addForm name).bind (goOn · rest)
  | argument :: rest =>
    match argument.toList with
    | '-' :: '-' :: 'e' :: 'm' :: 'i' :: 't' :: '=' :: name =>
      (g.addForm (String.ofList name)).bind (goOn · rest)
    | '-' :: '-' :: _ => none
    | '-' :: flag :: flags =>
      match Cluster.ofFlags? g (flag :: flags), rest with
      | some (.read g), rest => goOn g rest
      | some (.wantsForm g), name :: rest => (g.addForm name).bind (goOn · rest)
      | some (.asks request), _ => some request
      | _, _ => none
    | _ => (g.addFile argument).bind (goOn · rest)

/-- The request that arguments make, if they make sense. -/
def ofArguments? (arguments : List String) : Option Request := goOn .nothing arguments

end Request

end Scriptlet
