import TupleAssign.DeadImports
import TupleAssign.Desugar.Walk
/-!
# The pass

`desugar` replaces the unpackings of a unit by plain assignments and tidies its imports. The
outcome counts what was done and lists what could not be.
-/

namespace TupleAssign

structure DesugarConfig where
  marker : Marker := {}
  /-- What the names of temporaries begin with. -/
  stem : String := "$tuple"
deriving DecidableEq, Inhabited

/-- What a run has done. Names are those of the table. -/
structure Outcome (ν : Type := Name) where
  transformed : Nat
  temporaries : Nat
  /-- Unpackings left as they are without a problem being reported. -/
  skipped : Nat
  /-- The spellings of the marker calls in the unpackings replaced. -/
  markers : List String
  removedImports : List ν
  /-- In source order. -/
  problems : List (Problem ν)
deriving DecidableEq, Inhabited

namespace Outcome

variable {ν : Type}

def hasErrors (o : Outcome ν) : Bool := !o.problems.isEmpty

def diagnostics (o : Outcome ν) (spell : ν → String) : List Diagnostic :=
  o.problems.map (Problem.toDiagnostic spell)

end Outcome

namespace Desugar

/-- The resolver for the imports of a unit. The names that it looks for are entered in the table. -/
def resolver (m : Marker) (u : Node.CompilationUnit) (names : Interner) :
    Resolver Name × Interner :=
  (Resolver.ofImports m (u.imports.map (Import.map names.lookup))).enter names

/-- The state before the walk: the names that are looked for have been entered, and every
identifier of the unit is reserved. -/
def start (config : DesugarConfig) (p : Program) (names : Interner) (reserved : List Name) :
    State where
  program := p
  names := (resolver config.marker p.unit names).2
  temps := { stem := config.stem, reserved }

/-- Walks over a unit. -/
def walk (config : DesugarConfig) (p : Program) (names : Interner) : Except Fault State := do
  let reserved ← p.identifiers
  let r := (resolver config.marker p.unit names).1
  let ((), s) ← (Walk.unit r p.unit).run (start config p names reserved)
  return s

end Desugar

/-- Replaces the unpackings of a unit and removes the imports that nothing needs any more. -/
def desugar (config : DesugarConfig) (p : Program) (names : Interner) :
    Except Fault (Outcome × Program × Interner) := do
  let r := (Desugar.resolver config.marker p.unit names).1
  let s ← Desugar.walk config p names
  let (removed, program) ← s.program.removeDeadImports s.names config.marker r s.used
  let outcome : Outcome := {
    transformed := s.transformed
    temporaries := s.temps.allocated
    skipped := s.skipped
    markers := (Form.all.filter s.used.contains).map (Form.spelling config.marker)
    removedImports := removed
    problems := s.problems }
  return (outcome, program, s.names)

/-- Runs the pass once for each configuration, each time on what the run before left. The results
are those after each run. -/
def desugarEach : List DesugarConfig → Program → Interner →
    Except Fault (List (Outcome × Program × Interner))
  | [], _, _ => return []
  | config :: configs, p, names => do
    let (outcome, p, names) ← desugar config p names
    return (outcome, p, names) :: (← desugarEach configs p names)

end TupleAssign
