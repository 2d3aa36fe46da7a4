import TupleAssign.Desugar
import TupleAssign.Diagnostic.Queue
/-!
# Batches

Runs the pass over several units that share an interner. Each unit has a state and a diagnostic
queue of its own; the queues hash alike.
-/

namespace TupleAssign

structure BatchConfig where
  desugar : DesugarConfig := {}
  /-- Applies to the queue of each unit. -/
  queue : QueueConfig := {}
deriving DecidableEq, Inhabited

structure Report where
  outcome : Outcome
  /-- By offset. -/
  diagnostics : List Diagnostic
deriving DecidableEq, Inhabited

def Report.hasErrors (r : Report) : Bool := r.diagnostics.any (·.isError)

def Report.errorCount (r : Report) : Nat := r.diagnostics.countP (·.isError)

/-- The diagnostics of an outcome after they went through a queue. -/
def Outcome.report (hash : String → UInt64) (o : Outcome) (config : QueueConfig)
    (names : Interner) : Report where
  outcome := o
  diagnostics := ((Queue.ofConfig config).addAll hash (o.diagnostics names.lookup)).2.flush.1

/-- Totals over a batch. -/
structure Summary where
  units : Nat := 0
  transformed : Nat := 0
  temporaries : Nat := 0
  skipped : Nat := 0
  errors : Nat := 0
deriving DecidableEq, Inhabited

/-- A number of each report, summed up. -/
def Report.total (f : Report → Nat) (rs : List Report) : Nat := rs.foldr (fun r n => f r + n) 0

def Summary.ofReports (rs : List Report) : Summary where
  units := rs.length
  transformed := Report.total (·.outcome.transformed) rs
  temporaries := Report.total (·.outcome.temporaries) rs
  skipped := Report.total (·.outcome.skipped) rs
  errors := Report.total Report.errorCount rs

namespace Batch

variable (hash : String → UInt64)

def runOne (config : BatchConfig) (p : Program) (names : Interner) :
    Except Fault (Report × Program × Interner) := do
  let (outcome, p, names) ← desugar config.desugar p names
  return (outcome.report hash config.queue names, p, names)

/-- Runs over the units in order; reports come in the order of the units. -/
def run (config : BatchConfig) :
    List Program → Interner → Except Fault (List (Report × Program) × Interner)
  | [], names => return ([], names)
  | p :: ps, names => do
    let (report, p, names) ← runOne hash config p names
    let (rest, names) ← run config ps names
    return ((report, p) :: rest, names)

end Batch

end TupleAssign
