import TupleAssign.Tree
import TupleAssign.Dotted
import TupleAssign.Interner
/-!
# Marker calls

A marker call is a call of one configured method, in one of three forms: bare (`tuple(a)`), through
the simple name of its class (`Tuple.tuple(a)`) or fully qualified (`lombok.Tuple.tuple(a)`). The
first two count only in a unit whose imports make the name available.

Import paths are compared as strings. The names in calls are compared as names, so the names that are
looked for are entered in the table first.
-/

namespace TupleAssign

open TupleAssign.Tree (Expr)

/-- The method whose calls mark the two sides of an unpacking; `owner` is the qualified name of the
class that declares it. -/
structure Marker where
  owner : String := "lombok.Tuple"
  method : String := "tuple"
deriving DecidableEq, Inhabited

namespace Marker

def ownerSegments (m : Marker) : List String := Dotted.segments m.owner

def ownerSimpleName (m : Marker) : String := Dotted.simpleName m.owner

def ownerPackage (m : Marker) : String := Dotted.qualifier m.owner

/-- The path that a static import of the method names. -/
def staticImportPath (m : Marker) : String := m.owner ++ "." ++ m.method

/-- The names that are looked for in a unit. -/
def names (m : Marker) : List String := m.method :: m.ownerSimpleName :: m.ownerSegments

end Marker

inductive Form where
  | bare
  | simple
  | qualified
deriving DecidableEq, Inhabited

namespace Form

def all : List Form := [.bare, .simple, .qualified]

def label : Form → String
  | .bare => "Bare"
  | .simple => "Simple"
  | .qualified => "Qualified"

def ofLabel? (s : String) : Option Form := all.find? (·.label == s)

/-- The text of a call of this form, up to its arguments. -/
def spelling (m : Marker) : Form → String
  | .bare => m.method
  | .simple => m.ownerSimpleName ++ "." ++ m.method
  | .qualified => m.staticImportPath

end Form

/-- The segments of an expression that is a chain of field accesses from an identifier. -/
def Tree.Expr.dotted? {ν : Type} : Expr ν → Option (List ν)
  | .ident _ n => some [n]
  | .field _ r n => (Expr.dotted? r).map (· ++ [n])
  | _ => none

/-- Tells the marker calls of one unit. -/
structure Resolver (ν : Type := String) where
  method : ν
  ownerSimple : ν
  ownerPath : List ν
  bareImported : Bool
  simpleImported : Bool
deriving DecidableEq, Inhabited

namespace Resolver

/-- Whether an import makes the bare form available. -/
def importsBare (m : Marker) (i : Tree.Import) : Bool :=
  i.isStatic && i.path == (if i.onDemand then m.owner else m.staticImportPath)

/-- Whether an import makes the simple form available. The unnamed package cannot be imported. -/
def importsSimple (m : Marker) (i : Tree.Import) : Bool :=
  !i.isStatic &&
    (if i.onDemand then m.ownerPackage != "" && i.path == m.ownerPackage else i.path == m.owner)

def ofImports (m : Marker) (imports : List Tree.Import) : Resolver where
  method := m.method
  ownerSimple := m.ownerSimpleName
  ownerPath := m.ownerSegments
  bareImported := imports.any (importsBare m)
  simpleImported := imports.any (importsSimple m)

/-- The resolver that looks for names of the table, which are entered for it. -/
def enter (r : Resolver) (names : Interner) : Resolver Name × Interner :=
  let (method, names) := names.intern r.method
  let (ownerSimple, names) := names.intern r.ownerSimple
  let (ownerPath, names) := names.internEach r.ownerPath
  ({ r with method, ownerSimple, ownerPath }, names)

variable {ν : Type} [DecidableEq ν]

/-- The form of a call of the marker method on this receiver. A class of the unnamed package has
one name only, which counts as qualified. -/
def classifyReceiver (r : Resolver ν) : Option (Expr ν) → Option Form
  | none => if r.bareImported then some .bare else none
  | some e =>
    if 1 < r.ownerPath.length ∧ e.dotted? = some r.ownerPath then some .qualified
    else if e.dotted? = some [r.ownerSimple] then
      if r.ownerPath.length = 1 then some .qualified
      else if r.simpleImported then some .simple
      else none
    else none

/-- The form of a marker call; any other expression has none. -/
def classify (r : Resolver ν) : Expr ν → Option Form
  | .call _ receiver method _ =>
    if method = r.method then r.classifyReceiver receiver else none
  | _ => none

end Resolver

end TupleAssign
