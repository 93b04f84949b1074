import Scriptlet.Scope.Bindings

/-!
# Symbol tables

A symbol table is a scope inside another, and so on out to a global one. A name is looked up
from the inside out; only the innermost scope is ever changed.

## Main definitions

* `SymbolTable` — the innermost scope and those around it
* `SymbolTable.child`, `SymbolTable.parent?` — enter a scope, and leave it
* `SymbolTable.define`, `SymbolTable.remove` — bind and free a name, and say what was bound
* `SymbolTable.lookup`, `SymbolTable.lookupLocal` — look a name up
-/

namespace Scriptlet

/-- The innermost scope and those around it, the nearest first. -/
structure SymbolTable (V : Type) where
  innermost : Bindings V
  enclosing : List (Bindings V)
  deriving DecidableEq

namespace SymbolTable

variable {V : Type}

/-- A global scope without names. -/
def empty : SymbolTable V := ⟨.empty, []⟩

/-- Enters a new scope. -/
def child (t : SymbolTable V) : SymbolTable V := ⟨.empty, t.innermost :: t.enclosing⟩

/-- Leaves the innermost scope; the global scope cannot be left. -/
def parent? (t : SymbolTable V) : Option (SymbolTable V) :=
  match t.enclosing with
  | [] => none
  | scope :: scopes => some ⟨scope, scopes⟩

/-- How many scopes are around the innermost. -/
def depth (t : SymbolTable V) : Nat := t.enclosing.length

/-- What a name is bound to in the innermost scope. -/
def lookupLocal (t : SymbolTable V) (name : String) : Option V := t.innermost.get? name

/-- What a name is bound to in the nearest scope that binds it. -/
def lookup (t : SymbolTable V) (name : String) : Option V :=
  (t.innermost :: t.enclosing).findSome? (·.get? name)

/-- Binds a name in the innermost scope; also says what it was bound to there. -/
def define (t : SymbolTable V) (name : String) (value : V) : Option V × SymbolTable V :=
  (t.lookupLocal name, { t with innermost := t.innermost.insert name value })

/-- Frees a name in the innermost scope; also says what it was bound to there. -/
def remove (t : SymbolTable V) (name : String) : Option V × SymbolTable V :=
  (t.lookupLocal name, { t with innermost := t.innermost.erase name })

end SymbolTable

end Scriptlet
