/-!
# Spans

A span is a pair of byte offsets into a source file, the end exclusive. Nothing asks that the end
lies behind the start: a reversed span is a value like any other, with length zero.
-/

namespace TupleAssign

structure Span where
  start : Nat := 0
  stop : Nat := 0
deriving DecidableEq, Inhabited

namespace Span

def length (s : Span) : Nat := s.stop - s.start

/-- A reversed span has length zero without being empty. -/
def isEmpty (s : Span) : Bool := s.start == s.stop

def contains (s : Span) (offset : Nat) : Bool := s.start ≤ offset && offset < s.stop

def encloses (s t : Span) : Bool := s.start ≤ t.start && t.stop ≤ s.stop

/-- The least span that covers both. -/
def merge (s t : Span) : Span := ⟨min s.start t.start, max s.stop t.stop⟩

def text (s : Span) : String := toString s.start ++ ".." ++ toString s.stop

end Span

end TupleAssign
