import TupleAssign.Expansion
import TupleAssign.Scope
import TupleAssign.Splice
import TupleAssign.Store.Read
import TupleAssign.TempNames
import TupleAssign.Unpacking
/-!
# Deciding on an unpacking

The state of a pass over one unit, and what happens to one unpacking: `State.verdict` decides
without changing anything, `State.carryOut` puts a plan into effect. A rejected unpacking is left as
it is; all that remains of it is a problem, or one more in the count of those passed over.
-/

namespace TupleAssign.Desugar

structure State where
  program : Program
  names : Interner
  temps : TempNames Name
  /-- The declarations in sight. -/
  scopes : Scopes TypeId Name := {}
  path : Path := []
  /-- The forms of the marker calls of every unpacking replaced. -/
  used : List Form := []
  problems : List (Problem Name) := []
  transformed : Nat := 0
  skipped : Nat := 0
deriving Inhabited

/-- Why an unpacking stays: a fault of the source, or a place where statements cannot go. -/
inductive Rejection where
  | problem (p : Problem Name)
  | unsupported (u : Unsupported)
deriving DecidableEq, Inhabited

/-- A target, its value, and the declared type of the target if the value needs a temporary. -/
structure PlannedStep where
  target : Name
  value : ExprId
  tempType : Option TypeId
deriving DecidableEq, Inhabited

structure Plan where
  span : Span
  location : Location
  steps : List PlannedStep
  forms : List Form
deriving DecidableEq, Inhabited

section

variable {ν : Type}

/-- The targets of an unpacking. Its place is checked first, then the arguments are counted, then
their shape is looked at. -/
def checkTargets (inMethod : Bool) (u : Unpacking ν) : Except (Problem ν) (List ν) := do
  if !inMethod then throw ⟨.noEnclosingMethod, u.span⟩
  match u.checkArity with
  | .error cause => throw ⟨cause, u.span⟩
  | .ok () => return (← u.targets).map (·.name)

/-- The type of the temporary for each target that needs one. -/
def tempTypes {τ : Type} [DecidableEq ν] (scopes : Scopes τ ν) (span : Span) :
    List ν → List Hazard → Except (Problem ν) (List (Option τ))
  | t :: ts, h :: hs => do
    if h.needsTemporary then
      match scopes.resolve t span.start with
      | none => throw ⟨.unresolvedTarget t, span⟩
      | some type => return some type :: (← tempTypes scopes span ts hs)
    else return none :: (← tempTypes scopes span ts hs)
  | _, _ => return []

end

def planSteps : List Name → List ExprId → List (Option TypeId) → List PlannedStep
  | t :: ts, v :: vs, type :: types => ⟨t, v, type⟩ :: planSteps ts vs types
  | _, _, _ => []

namespace State

/-- Decides on an unpacking at the end of the path, whose values have the given ids. -/
def verdict (s : State) (u : Unpacking Name) (values : List ExprId) :
    Except Fault (Except Rejection Plan) :=
  match checkTargets s.path.enclosingMethod?.isSome u with
  | .error p => return .error (.problem p)
  | .ok targets => do
    match ← s.program.locate s.path with
    | .error r => return .error (.unsupported r)
    | .ok location =>
      match tempTypes s.scopes u.span targets (Hazard.analyze targets u.values) with
      | .error p => return .error (.problem p)
      | .ok types =>
        return .ok {
          span := u.span, location, steps := planSteps targets values types,
          forms := [u.left.form, u.right.form] }

/-- Names the temporaries of a plan, in order. -/
def nameSteps (temps : TempNames Name) (names : Interner) :
    List PlannedStep → List Step × TempNames Name × Interner
  | [] => ([], temps, names)
  | step :: steps =>
    match step.tempType with
    | none =>
      let (rest, temps, names) := nameSteps temps names steps
      (⟨step.target, step.value, none⟩ :: rest, temps, names)
    | some type =>
      let (temp, temps, names) := temps.allocate names
      let (rest, temps, names) := nameSteps temps names steps
      (⟨step.target, step.value, some ⟨temp, type⟩⟩ :: rest, temps, names)

/-- Replaces the statement of an unpacking by its expansion. -/
def carryOut (s : State) (plan : Plan) : Except Fault State :=
  let (steps, temps, names) := nameSteps s.temps s.names plan.steps
  match (expand plan.span steps).run.run s.program.store with
  | (.error f, _) => .error f
  | (.ok stmts, store) => do
    let program := { s.program with store }
    let s := { s with temps, names }
    match ← program.splice plan.location.container plan.location.stmt stmts with
    | (.error _, program) => return { s with program, skipped := s.skipped + 1 }
    | (.ok _, program) =>
      return { s with
        program
        used := s.used ++ plan.forms
        transformed := s.transformed + 1 }

/-- Handles one unpacking. -/
def handle (s : State) (u : Unpacking Name) (values : List ExprId) : Except Fault State := do
  match ← s.verdict u values with
  | .error (.problem p) => return { s with problems := s.problems ++ [p] }
  | .error (.unsupported _) => return { s with skipped := s.skipped + 1 }
  | .ok plan => s.carryOut plan

end State

end TupleAssign.Desugar
