import TupleAssign.Diagnostic
/-!
# Problems

Why an unpacking was rejected, and the diagnostic that says so. A problem holds names; its diagnostic
is written once it is known how these are spelled.
-/

namespace TupleAssign

inductive Cause (ν : Type := String) where
  /-- The two sides have different numbers of arguments. -/
  | arityMismatch (targets values : Nat)
  /-- A target is not a plain variable name. -/
  | invalidLeftShape
  /-- The unpacking stands in a field initializer or an initializer block. -/
  | noEnclosingMethod
  /-- A target that needs a temporary has no visible declaration. -/
  | unresolvedTarget (name : ν)
deriving DecidableEq, Inhabited

namespace Cause

variable {ν : Type}

def code : Cause ν → Code
  | .arityMismatch _ _ => .arityMismatch
  | .invalidLeftShape => .invalidLeftShape
  | .noEnclosingMethod => .noEnclosingMethod
  | .unresolvedTarget _ => .internalError

def isInternal (c : Cause ν) : Bool := c.code.isInternal

def message : Cause ν → String
  | .arityMismatch _ _ => "left and right side must have the same number of arguments"
  | .invalidLeftShape => "only variable names allowed on the left side"
  | .noEnclosingMethod => "can only be used inside a method body"
  | .unresolvedTarget _ =>
    "internal error: unable to find the declared type of an unpacking target"

/-- What is written at the place of the problem. -/
def labelText (spell : ν → String) : Cause ν → String
  | .arityMismatch targets values =>
    toString targets ++ " targets but " ++ toString values ++ " values"
  | .invalidLeftShape => "not a variable name"
  | .noEnclosingMethod => "outside any method body"
  | .unresolvedTarget name => "no declaration of `" ++ spell name ++ "` found"

def notes : Cause ν → List String
  | .arityMismatch _ _ => []
  | .invalidLeftShape =>
    ["fields, array elements and computed expressions cannot be unpacked into"]
  | .noEnclosingMethod => ["field initializers and initializer blocks are not method bodies"]
  | .unresolvedTarget _ => ["this is a bug in the desugaring pass; please report it"]

def suggestions : Cause ν → List String
  | .arityMismatch _ _ => ["give both marker calls the same number of arguments"]
  | .invalidLeftShape => ["unpack into a local variable and assign it afterwards"]
  | _ => []

end Cause

structure Problem (ν : Type := String) where
  cause : Cause ν
  span : Span
deriving DecidableEq, Inhabited

def Problem.toDiagnostic {ν : Type} (spell : ν → String) (p : Problem ν) : Diagnostic where
  code := p.cause.code
  message := p.cause.message
  labels := [.primary p.span (p.cause.labelText spell)]
  notes := p.cause.notes
  suggestions := p.cause.suggestions

end TupleAssign
