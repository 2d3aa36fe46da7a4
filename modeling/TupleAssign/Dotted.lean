/-!
# Dotted paths

A dotted path such as `a.b.C` is held as one string. `segments` cuts it at every dot, so a path
without a dot, the empty one included, has one segment, and two dots in a row enclose an empty one.
-/

namespace TupleAssign.Dotted

/-- Cuts at every dot; the result is never empty. -/
def split : List Char → List (List Char)
  | [] => [[]]
  | '.' :: cs => [] :: split cs
  | c :: cs =>
    match split cs with
    | [] => [[c]]
    | s :: ss => (c :: s) :: ss

def segments (path : String) : List String := (split path.toList).map String.ofList

def join (segs : List String) : String := ".".intercalate segs

/-- What stands behind the last dot. -/
def simpleName (path : String) : String := (segments path).getLastD path

/-- What stands before the last dot; empty if there is none. -/
def qualifier (path : String) : String := join (segments path).dropLast

end TupleAssign.Dotted
