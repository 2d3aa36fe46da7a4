import TupleAssign.Store
/-!
# Copying and comparing stored types

Both follow the ids of a type downwards. In a store whose types contain themselves that would not
end, so each takes a number of levels large enough for every store in which it does end.
-/

namespace TupleAssign

/-- A change of a store that may break off; what was entered until then stays. -/
abbrev Edit := ExceptT Fault (StateM Store)

namespace Store

/-- Copies a type with all its parts: parts first, then their list, then the node. -/
def copyTypeTo : Nat → TypeId → Edit TypeId
  | 0, _ => throw .cycle
  | levels + 1, id => do
    match ← liftExcept ((← get).type id) with
    | .primitive p => allocType (.primitive p)
    | .named name args => do
      let parts ← liftExcept ((← get).typeList args)
      let copies ← parts.mapM (copyTypeTo levels)
      let list ← allocTypeList copies
      allocType (.named name list)
    | .array elem => do
      let copy ← copyTypeTo levels elem
      allocType (.array copy)

/-- A copy of a type that shares no node with it. -/
def copyType (id : TypeId) : Edit TypeId := do
  copyTypeTo ((← get).types.size + 1) id

/-- Compares two types part by part, and stops at the first difference. -/
def typesEqualTo (st : Store) : Nat → TypeId → TypeId → Except Fault Bool
  | 0, _, _ => .error .cycle
  | levels + 1, a, b => do
    match ← st.type a, ← st.type b with
    | .primitive p, .primitive q => return p == q
    | .named n as, .named m bs =>
      if n = m ∧ as.len = bs.len then
        let xs ← st.typeList as
        let ys ← st.typeList bs
        (xs.zip ys).allM fun (x, y) => typesEqualTo st levels x y
      else return false
    | .array x, .array y => typesEqualTo st levels x y
    | _, _ => return false

/-- Whether two types have the same structure. A comparison that comes to one pair of ids twice
never ends, so it needs no more levels than there are pairs. -/
def typesEqual (st : Store) (a b : TypeId) : Except Fault Bool :=
  st.typesEqualTo (st.types.size * st.types.size + 1) a b

end Store

end TupleAssign
