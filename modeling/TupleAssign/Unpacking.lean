import TupleAssign.Hazard
import TupleAssign.Marker
import TupleAssign.Problem
/-!
# Unpackings

An unpacking is an assignment whose two sides are marker calls: the arguments on the left are the
targets, those on the right the values, paired by position.
-/

namespace TupleAssign

open TupleAssign.Tree (Expr)

/-- One of the two marker calls. -/
structure Side (ν : Type := String) where
  form : Form
  args : List (Expr ν)
  span : Span
deriving Inhabited

structure Unpacking (ν : Type := String) where
  span : Span
  left : Side ν
  right : Side ν
deriving Inhabited

structure Target (ν : Type := String) where
  name : ν
  span : Span
deriving DecidableEq, Inhabited

section

variable {ν : Type}

namespace Resolver

variable [DecidableEq ν]

def side? (r : Resolver ν) : Expr ν → Option (Side ν)
  | .call span receiver method args =>
    (r.classify (.call span receiver method args)).map fun form => ⟨form, args, span⟩
  | _ => none

/-- The unpacking that an expression is, if it is one. -/
def unpacking? (r : Resolver ν) : Expr ν → Option (Unpacking ν)
  | .assign span target value =>
    match r.side? target, r.side? value with
    | some left, some right => some ⟨span, left, right⟩
    | _, _ => none
  | _ => none

end Resolver

namespace Unpacking

def checkArity (u : Unpacking ν) : Except (Cause ν) Unit :=
  if u.left.args.length = u.right.args.length then .ok ()
  else .error (.arityMismatch u.left.args.length u.right.args.length)

/-- A plain variable; any other expression is a problem at its own span. -/
def target? : Expr ν → Except (Problem ν) (Target ν)
  | .ident span name => .ok ⟨name, span⟩
  | e => .error ⟨.invalidLeftShape, e.span⟩

/-- The targets, or the problem of the first argument that is none. -/
def targets (u : Unpacking ν) : Except (Problem ν) (List (Target ν)) := u.left.args.mapM target?

def values (u : Unpacking ν) : List (Expr ν) := u.right.args

end Unpacking

end

end TupleAssign
