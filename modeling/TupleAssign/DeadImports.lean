import TupleAssign.Marker
import TupleAssign.Store.Visit
/-!
# Dead imports

With its unpackings gone a unit may no longer need the imports that made the marker calls
available. A static import of the method goes when no bare call of it is left, an import of the
class when its simple name is left neither as an identifier nor as a type. On-demand imports stay.
-/

namespace TupleAssign.DeadImports

open Node (Site)

/-- A receiver-less call of the method. -/
def callsBare (method : Name) : Site → Bool
  | .expr _ ⟨.call none n _, _⟩ => n == method
  | _ => false

/-- An identifier or a class type that is the name. -/
def mentions (name : Name) : Site → Bool
  | .expr _ ⟨.ident n, _⟩ => n == name
  | .type _ (.named n _) => n == name
  | _ => false

/-- How often a unit uses what the imports make available. -/
structure Usage where
  bareCalls : Nat
  ownerRefs : Nat
deriving DecidableEq, Inhabited

/-- Whether nothing in the unit needs the imports behind a form any more. -/
def Usage.spares (u : Usage) : Form → Bool
  | .bare => u.bareCalls == 0
  | .simple => u.ownerRefs == 0
  | .qualified => false

/-- Whether an import, with the path `path`, is the single import behind a form. -/
def servesForm {ν : Type} (m : Marker) (i : Import ν) (path : String) : Form → Bool
  | .bare => i.isStatic && !i.onDemand && path == m.staticImportPath
  | .simple => !i.isStatic && !i.onDemand && path == m.owner
  | .qualified => false

/-- Takes out the imports that serve one of the forms, form by form: those taken out and those
left. -/
def removeServing (m : Marker) (names : Interner) :
    List Form → List Node.Import → List Node.Import × List Node.Import
  | [], imports => ([], imports)
  | form :: forms, imports =>
    let serves := fun i : Node.Import => servesForm m i (names.lookup i.path) form
    let (removed, left) := removeServing m names forms (imports.filter fun i => !serves i)
    (imports.filter serves ++ removed, left)

end TupleAssign.DeadImports

namespace TupleAssign.Program

open DeadImports

def usage (p : Program) (r : Resolver Name) : Except Fault Usage := do
  let sites ← p.sites
  return {
    bareCalls := sites.countP (callsBare r.method)
    ownerRefs := sites.countP (mentions r.ownerSimple) }

/-- Removes the imports that only served the forms in `used` and now serve nothing; says which. -/
def removeDeadImports (p : Program) (names : Interner) (m : Marker) (r : Resolver Name)
    (used : List Form) : Except Fault (List Name × Program) := do
  if used.isEmpty then return ([], p)
  else
    let usage ← p.usage r
    let dead := Form.all.filter fun f => used.contains f && usage.spares f
    let (removed, left) := removeServing m names dead p.unit.imports
    return (removed.map (·.path), { p with unit := { p.unit with imports := left } })

end TupleAssign.Program
