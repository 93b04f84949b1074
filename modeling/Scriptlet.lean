import Scriptlet.Tree.Parts
import Scriptlet.Scope.SymbolTable
import Scriptlet.Main
import Scriptlet.Proofs.Syntax.Phrase
import Scriptlet.Proofs.Syntax.Reading
import Scriptlet.Proofs.Syntax.Soundness
import Scriptlet.Proofs.Syntax.Completeness
import Scriptlet.Proofs.Code.Assembly
import Scriptlet.Proofs.Code.ControlFlow
import Scriptlet.Proofs.Code.Endings
import Scriptlet.Proofs.Code.Kept
import Scriptlet.Proofs.Code.Naming
import Scriptlet.Proofs.Meaning.Computing
import Scriptlet.Proofs.Meaning.Progress
import Scriptlet.Proofs.Meaning.Running
import Scriptlet.Proofs.Meaning.Simulation
import Scriptlet.Proofs.Lexemes.Seam
import Scriptlet.Proofs.Lexemes.Writing
import Scriptlet.Proofs.Source.Content
import Scriptlet.Proofs.Source.Writing
import Scriptlet.Proofs.Syntax.Extent
import Scriptlet.Proofs.Syntax.Locating
import Scriptlet.Proofs.Syntax.Pinning
import Scriptlet.Proofs.Source.Excerpts
import Scriptlet.Proofs.Code.Decoding
import Scriptlet.Proofs.Source.Rendering
import Scriptlet.Proofs.Code.Shifting
import Scriptlet.Proofs.Syntax.EndOfInput
import Scriptlet.Proofs.Source.Spacing
import Scriptlet.Proofs.Source.Integers
import Scriptlet.Proofs.Syntax.Attempts
import Scriptlet.Proofs.Scope.Histories
import Scriptlet.Proofs.CommandLine.Sessions
import Scriptlet.Proofs.Binary64.Rounding
import Scriptlet.Proofs.Binary64.Shortest
import Scriptlet.Proofs.Source.Quoting
