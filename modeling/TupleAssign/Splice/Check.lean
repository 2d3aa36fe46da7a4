import TupleAssign.NodeId
/-!
# Legal splices

A splice replaces one statement of a list by others. `checkSplice` compares the lists before and
after, and names the first thing found wrong.
-/

namespace TupleAssign

inductive SpliceError where
  | notInOldList (replaced : StmtId)
  | wrongLength (actual expected : Nat)
  | headChanged
  | insertedNotFound (position : Nat)
  | tailChanged
deriving DecidableEq, Inhabited

def SpliceError.message : SpliceError → String
  | .notInOldList replaced => "replaced " ++ replaced.text ++ " was not in the old list"
  | .wrongLength actual expected =>
    "new list has " ++ toString actual ++ " statements, expected " ++ toString expected
  | .headChanged => "statements before the splice changed"
  | .insertedNotFound position =>
    "inserted statements not found contiguously at index " ++ toString position
  | .tailChanged => "statements after the splice changed"

/-- Checks that `after` is `before` with the first `replaced` exchanged for `inserted`. -/
def checkSplice (before after : List StmtId) (replaced : StmtId) (inserted : List StmtId) :
    Except SpliceError Unit :=
  match before.idxOf? replaced with
  | none => .error (.notInOldList replaced)
  | some position =>
    let expected := before.length - 1 + inserted.length
    if after.length ≠ expected then .error (.wrongLength after.length expected)
    else if after.take position ≠ before.take position then .error .headChanged
    else if (after.drop position).take inserted.length ≠ inserted then
      .error (.insertedNotFound position)
    else if after.drop (position + inserted.length) ≠ before.drop (position + 1) then
      .error .tailChanged
    else .ok ()

end TupleAssign
