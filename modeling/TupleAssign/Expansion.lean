import TupleAssign.Store.Build
import TupleAssign.Store.Types
/-!
# Expansions

The statements that take the place of an unpacking: first a `final` temporary for each value that
has to be evaluated early, then one assignment for each target. For `tuple(a, b) = tuple(b, a)`

    final int $tuple0 = a;
    a = b;
    b = $tuple0;
-/

namespace TupleAssign

structure Temporary where
  name : Name
  /-- The declared type of the target, of which the temporary gets a copy. -/
  type : TypeId
deriving DecidableEq, Inhabited

/-- One target and how it gets its value: through a temporary or at once. -/
structure Step where
  target : Name
  value : ExprId
  temp : Option Temporary
deriving DecidableEq, Inhabited

namespace Expansion

/-- The declarations of the temporaries, in order. -/
def declareTemps (span : Span) : List Step → Edit (List StmtId)
  | [] => return []
  | step :: steps => do
    match step.temp with
    | none => declareTemps span steps
    | some t => do
      let type ← Store.copyType t.type
      let decl ← Build.stmt span (.localVar type t.name (some step.value) true)
      return decl :: (← declareTemps span steps)

/-- The assignments, in order. -/
def assignTargets (span : Span) : List Step → StateM Store (List StmtId)
  | [] => return []
  | step :: steps => do
    let value ← match step.temp with
      | none => pure step.value
      | some t => Build.expr span (.ident t.name)
    let assign ← Build.assignStmt span step.target value
    return assign :: (← assignTargets span steps)

end Expansion

/-- Enters the expansion of a plan. The value expressions are used as they are, each once; every
new node gets the span. -/
def expand (span : Span) (plan : List Step) : Edit (List StmtId) := do
  let decls ← Expansion.declareTemps span plan
  let assigns ← Expansion.assignTargets span plan
  return decls ++ assigns

end TupleAssign
