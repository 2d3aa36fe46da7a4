import TupleAssign.Diagnostic
/-!
# The diagnostic queue

Collects the diagnostics of one unit. Errors that repeat an earlier one are dropped, and once the
error limit is reached one closing diagnostic takes the place of all further errors. Warnings and
notes always get in. `flush` hands the content back in the order of offsets.

Errors are told apart by a hash of how their messages begin. Which hash it is does not matter here:
the operations that need one take it as an argument.
-/

namespace TupleAssign

structure QueueConfig where
  /-- The greatest number of errors kept; zero means any number. -/
  errorLimit : Nat := 10
  deduplicate : Bool := true
deriving DecidableEq, Inhabited

def QueueConfig.unlimited : QueueConfig := ⟨0, false⟩

/-- What makes two errors the same: code, offset, and a hash of how the message begins. -/
structure ErrorKey where
  code : Code
  offset : Nat
  hash : UInt64
deriving DecidableEq, Inhabited

/-- The number of characters of a message that tell errors apart. -/
def openingLength : Nat := 30

/-- How the message begins. -/
def Diagnostic.opening (d : Diagnostic) : String := String.ofList (d.message.toList.take openingLength)

def Diagnostic.key (hash : String → UInt64) (d : Diagnostic) : ErrorKey :=
  ⟨d.code, d.offset, hash d.opening⟩

/-- The closing diagnostic of a queue that is full. -/
def Diagnostic.tooManyErrors (limit : Nat) (span : Span) : Diagnostic where
  code := .tooManyErrors
  message := "aborting due to " ++ toString limit ++ " previous errors"
  labels := [.primary span "error limit reached here"]
  notes := ["raise `DiagnosticConfig::error_limit` to see more"]

structure Queue where
  config : QueueConfig := {}
  /-- The diagnostics in order of arrival. -/
  entries : List Diagnostic := []
  errorCount : Nat := 0
  /-- The keys of the errors kept. -/
  seen : List ErrorKey := []
  limitReported : Bool := false
deriving DecidableEq, Inhabited

namespace Queue

def ofConfig (config : QueueConfig) : Queue := { config }

def limitReached (q : Queue) : Bool :=
  0 < q.config.errorLimit && q.config.errorLimit ≤ q.errorCount

def hasErrors (q : Queue) : Bool := 0 < q.errorCount

def length (q : Queue) : Nat := q.entries.length

def isEmpty (q : Queue) : Bool := q.entries.isEmpty

/-- Turns an error away because the queue is full; the first one leaves the closing diagnostic
where it would have stood. -/
def refuse (q : Queue) (d : Diagnostic) : Queue :=
  if q.limitReported then q
  else
    { q with
      limitReported := true
      entries :=
        q.entries ++ [.tooManyErrors q.config.errorLimit ⟨d.offset, d.offset⟩] }

section

variable (hash : String → UInt64)

/-- Offers a diagnostic; the flag says whether it was kept. -/
def add (q : Queue) (d : Diagnostic) : Bool × Queue :=
  if !d.isError then (true, { q with entries := q.entries ++ [d] })
  else if q.limitReached then (false, q.refuse d)
  else if q.config.deduplicate && q.seen.contains (d.key hash) then (false, q)
  else
    (true,
      { q with
        entries := q.entries ++ [d]
        errorCount := q.errorCount + 1
        seen := q.seen ++ [d.key hash] })

/-- Offers diagnostics in order; the number says how many were kept. -/
def addAll (q : Queue) : List Diagnostic → Nat × Queue
  | [] => (0, q)
  | d :: ds =>
    let (kept, q) := q.add hash d
    let (count, q) := addAll q ds
    ((if kept then count + 1 else count), q)

end

/-- Whether the offsets ascend, each compared with the next. -/
def ascends : List Diagnostic → Bool
  | a :: b :: ds => a.offset ≤ b.offset && ascends (b :: ds)
  | _ => true

/-- Empties the queue. What it held comes back by offset, equal offsets in order of arrival; it is
sorted only if it has to be. -/
def flush (q : Queue) : List Diagnostic × Queue :=
  let sorted :=
    if ascends q.entries then q.entries
    else q.entries.mergeSort (fun a b => a.offset ≤ b.offset)
  (sorted, { q with entries := [], errorCount := 0, seen := [], limitReported := false })

end Queue

end TupleAssign
