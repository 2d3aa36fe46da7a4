import TupleAssign.Interner
/-!
# Names of temporaries

A temporary is named by a stem and a number. Numbers are tried in order from zero; a number whose
name is reserved is passed over.
-/

namespace TupleAssign

structure TempNames (ν : Type := String) where
  stem : String
  /-- The next number to try. -/
  next : Nat := 0
  reserved : List ν
  allocated : Nat := 0
deriving DecidableEq, Inhabited

namespace TempNames

def candidate (stem : String) (n : Nat) : String := stem ++ toString n

/-- Tries numbers from `n` on until the name of one is free, and says which. Every name tried is
interned. Of `tries` names that are all reserved, the next one is taken as it is. -/
def search (stem : String) (reserved : List Name) : (tries n : Nat) → Interner → Name × Nat × Interner
  | 0, n, names =>
    let (name, names) := names.intern (candidate stem n)
    (name, n, names)
  | tries + 1, n, names =>
    let (name, names) := names.intern (candidate stem n)
    if reserved.contains name then search stem reserved tries (n + 1) names else (name, n, names)

/-- Hands out the next name, which is reserved from then on. Different numbers have different names,
so among one more than there are reserved names one is free. -/
def allocate (t : TempNames Name) (names : Interner) : Name × TempNames Name × Interner :=
  let (name, n, names) := search t.stem t.reserved (t.reserved.length + 1) t.next names
  (name,
    { t with
      next := n + 1
      reserved := name :: t.reserved
      allocated := t.allocated + 1 },
    names)

end TempNames

end TupleAssign
