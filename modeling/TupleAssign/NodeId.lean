/-!
# Node ids and slices

Nodes of one sort live in one table and are named by their index in it. Child lists are contiguous
stretches of a list table, named by a slice. Ids are written as 32-bit numbers, and the largest
such number stands for "no node": a slot that may be empty holds an `Option`, and `NodeId.ofRaw?` and
`NodeId.toRaw` convert between the two forms.
-/

namespace TupleAssign

/-- What a table holds. -/
inductive NodeSort where
  | expr
  | stmt
  | arm
  | type
deriving DecidableEq, Inhabited

def NodeSort.label : NodeSort → String
  | .expr => "Expr"
  | .stmt => "Stmt"
  | .arm => "Case"
  | .type => "ParsedType"

/-- The largest raw id, which names no node. -/
def absentRaw : Nat := 4294967295

structure NodeId (s : NodeSort) where
  index : Nat
deriving DecidableEq, Inhabited

abbrev ExprId := NodeId .expr
abbrev StmtId := NodeId .stmt
abbrev ArmId := NodeId .arm
abbrev TypeId := NodeId .type

namespace NodeId

variable {s : NodeSort}

def isValid (i : NodeId s) : Bool := i.index != absentRaw

/-- The id that fills an empty slot. -/
def absent : NodeId s := ⟨absentRaw⟩

/-- The content of a slot that may be empty. -/
def ofRaw? (raw : Nat) : Option (NodeId s) := if raw = absentRaw then none else some ⟨raw⟩

def toRaw : Option (NodeId s) → Nat
  | none => absentRaw
  | some i => i.index

def text (i : NodeId s) : String :=
  if i.isValid then s.label ++ "Id(" ++ toString i.index ++ ")" else s.label ++ "Id::INVALID"

/-- An empty slot reads as the absent id. -/
def slotText (slot : Option (NodeId s)) : String := (slot.getD absent).text

end NodeId

/-- `len` consecutive entries of a list table, from `start` on. -/
structure Slice (s : NodeSort) where
  start : Nat := 0
  len : Nat := 0
deriving DecidableEq, Inhabited

namespace Slice

variable {s : NodeSort}

def isEmpty (r : Slice s) : Bool := r.len == 0

def stop (r : Slice s) : Nat := r.start + r.len

def text (r : Slice s) : String :=
  s.label ++ "Range(" ++ toString r.start ++ ".." ++ toString r.stop ++ ")"

end Slice

end TupleAssign
