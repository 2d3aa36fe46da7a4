/-!
# Names and the interner

A name is an index into a table of distinct strings, and a map leads from each of these back to its
name. Both start with the empty string, so name 0 is the empty name, and grow by one entry for each
string that is new to them.
-/

namespace TupleAssign

structure Name where
  index : Nat
deriving DecidableEq, Inhabited

namespace Name

/-- The empty name, also used where a name is absent (a unit without a package). -/
def empty : Name := ⟨0⟩

def isEmpty (n : Name) : Bool := n.index == 0

def text (n : Name) : String := "Name(" ++ toString n.index ++ ")"

end Name

inductive InternError where
  | overflow (count : Nat)
deriving DecidableEq, Inhabited

def InternError.message : InternError → String
  | .overflow count =>
    "interner exceeded capacity: " ++ toString count ++ " strings, max is 4294967295"

/-- A map from strings to names and a table of strings are inverse to each other. -/
def Inverse (ids : List (String × Name)) (strings : Array String) : Prop :=
  ∀ s n, ids.lookup s = some n ↔ strings[n.index]? = some s

namespace Inverse

theorem fresh : Inverse [("", .empty)] #[""] := by
  rintro s ⟨i⟩
  by_cases hs : s = ""
  · cases i <;> simp [Name.empty, hs]
  · have hne : (s == "") = false := beq_eq_false_iff_ne.2 hs
    cases i <;> simp [Name.empty, List.lookup_cons, hne, Ne.symm hs]

/-- A string that is new to the map goes to the end of the table, and its place into the map. -/
theorem push {ids : List (String × Name)} {strings : Array String} (h : Inverse ids strings)
    {s : String} (hnew : ids.lookup s = none) :
    Inverse ((s, ⟨strings.size⟩) :: ids) (strings.push s) := by
  rintro x ⟨i⟩
  rw [List.lookup_cons, Array.getElem?_push]
  by_cases hx : x = s
  · subst hx
    -- It stands at no other place, since it was not in the map.
    have hother : strings[i]? ≠ some x := fun hi => by simpa [hnew] using (h x ⟨i⟩).2 hi
    by_cases hi : i = strings.size
    · simp [hi]
    · simp [hi, hother, Ne.symm hi]
  · have hne : (x == s) = false := beq_eq_false_iff_ne.2 hx
    by_cases hi : i = strings.size
    · have hend : ids.lookup x ≠ some ⟨i⟩ := fun hl => by simpa [hi] using (h x ⟨i⟩).1 hl
      simpa [hne, hi, Ne.symm hx] using hend
    · simpa [hne, hi] using h x ⟨i⟩

end Inverse

/-- A map that finds the name of a string, and a table that reads the string of a name. -/
structure Interner where
  ids : List (String × Name) := [("", .empty)]
  strings : Array String := #[""]
  inverse : Inverse ids strings := by exact Inverse.fresh
deriving DecidableEq

namespace Interner

instance : Inhabited Interner := ⟨{}⟩

def size (t : Interner) : Nat := t.strings.size

/-- The name of a string that has one. -/
def get? (t : Interner) (s : String) : Option Name := t.ids.lookup s

/-- The string of a name; a name that was never handed out reads as the empty string. -/
def lookup (t : Interner) (n : Name) : String := t.strings[n.index]?.getD ""

/-- Gives the next name to a string that has none. -/
def enter (t : Interner) (s : String) (h : t.get? s = none) : Interner where
  ids := (s, ⟨t.size⟩) :: t.ids
  strings := t.strings.push s
  inverse := t.inverse.push h

/-- The name of `s`, which is entered if it is new. -/
def intern (t : Interner) (s : String) : Name × Interner :=
  match h : t.get? s with
  | some n => (n, t)
  | none => (⟨t.size⟩, t.enter s h)

theorem intern_of_get? {t : Interner} {s : String} {n : Name} (h : t.get? s = some n) :
    t.intern s = (n, t) := by
  unfold intern
  split
  · next h' => rw [Option.some.inj (h.symm.trans h')]
  · next h' => rw [h] at h'; cases h'

theorem intern_of_new {t : Interner} {s : String} (h : t.get? s = none) :
    t.intern s = (⟨t.size⟩, t.enter s h) := by
  unfold intern
  split
  · next h' => rw [h] at h'; cases h'
  · rfl

/-- There are no more than 2 ^ 32 names. -/
def capacity : Nat := 4294967296

/-- As `intern`, but a new string does not get into a full table. -/
def tryIntern (t : Interner) (s : String) : Except InternError (Name × Interner) :=
  if (t.get? s).isSome || t.size < capacity then .ok (t.intern s) else .error (.overflow t.size)

/-- The names of the strings of a list, which are entered in order. -/
def internEach (t : Interner) : List String → List Name × Interner
  | [] => ([], t)
  | s :: ss =>
    let (n, t) := t.intern s
    let (ns, t) := internEach t ss
    (n :: ns, t)

end Interner

end TupleAssign
