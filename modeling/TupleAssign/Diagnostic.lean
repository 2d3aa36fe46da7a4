import TupleAssign.Span
/-!
# Diagnostics

A diagnostic says what is wrong (message), where (labels), and what to do about it (notes and
suggestions). Its code can be searched for; `render` is its text.
-/

namespace TupleAssign

/-- Codes are listed in their order. -/
inductive Code where
  | arityMismatch
  | invalidLeftShape
  | noEnclosingMethod
  | internalError
  | tooManyErrors
deriving DecidableEq, Inhabited

namespace Code

def all : List Code :=
  [.arityMismatch, .invalidLeftShape, .noEnclosingMethod, .internalError, .tooManyErrors]

def text : Code → String
  | .arityMismatch => "E0101"
  | .invalidLeftShape => "E0102"
  | .noEnclosingMethod => "E0103"
  | .internalError => "E9001"
  | .tooManyErrors => "E9002"

def ofText? (s : String) : Option Code := all.find? (·.text == s)

/-- Codes of the `E9` group point at the tool, not at the source. -/
def isInternal : Code → Bool
  | .internalError | .tooManyErrors => true
  | _ => false

/-- Codes of the `E01` group are about an unpacking. -/
def isUnpacking : Code → Bool
  | .arityMismatch | .invalidLeftShape | .noEnclosingMethod => true
  | _ => false

def rank (c : Code) : Nat := all.idxOf c

def compare (a b : Code) : Ordering := Ord.compare a.rank b.rank

end Code

inductive Severity where
  | error
  | warning
  | note
deriving DecidableEq, Inhabited

namespace Severity

def text : Severity → String
  | .error => "error"
  | .warning => "warning"
  | .note => "note"

def ofText? (s : String) : Option Severity :=
  [Severity.error, .warning, .note].find? (·.text == s)

end Severity

/-- A span with a message; the primary one is where the fault lies, others give context. -/
structure Label where
  span : Span
  message : String
  isPrimary : Bool
deriving DecidableEq, Inhabited

namespace Label

def primary (span : Span) (message : String) : Label := ⟨span, message, true⟩

def secondary (span : Span) (message : String) : Label := ⟨span, message, false⟩

def render (l : Label) : String :=
  "\n  " ++ (if l.isPrimary then "-->" else "   ") ++ " " ++ l.span.text ++ ": " ++ l.message

end Label

structure Diagnostic where
  code : Code
  severity : Severity := .error
  message : String := ""
  labels : List Label := []
  notes : List String := []
  suggestions : List String := []
deriving DecidableEq, Inhabited

namespace Diagnostic

def isError (d : Diagnostic) : Bool := d.severity == .error

/-- The span of the first primary label. -/
def primarySpan? (d : Diagnostic) : Option Span := (d.labels.find? (·.isPrimary)).map (·.span)

/-- Where the diagnostic is listed: the start of its primary span, else the start of the file. -/
def offset (d : Diagnostic) : Nat :=
  match d.primarySpan? with
  | some s => s.start
  | none => 0

def render (d : Diagnostic) : String :=
  d.severity.text ++ " [" ++ d.code.text ++ "]: " ++ d.message
    ++ String.join (d.labels.map Label.render)
    ++ String.join (d.notes.map fun n => "\n  = note: " ++ n)
    ++ String.join (d.suggestions.map fun s => "\n  = help: " ++ s)

end Diagnostic

end TupleAssign
