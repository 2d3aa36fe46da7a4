import TupleAssign.Tree
/-!
# Hazards

An unpacking assigns its values one after the other. A value that reads a variable assigned before
it would see the new content, so it has to be evaluated early, into a temporary. What counts is what
a value reads openly: the receiver of a field access or of a call is a matter of the member, and is
not looked into; the arguments of a call are.
-/

namespace TupleAssign

inductive Hazard where
  /-- Reads no forbidden variable, and reads something. -/
  | safe
  /-- Reads a forbidden variable. -/
  | hazardous
  /-- Reads no variable and no member at all. -/
  | indeterminate
deriving DecidableEq, Inhabited

namespace Hazard

def needsTemporary : Hazard → Bool
  | .hazardous => true
  | _ => false

def label : Hazard → String
  | .safe => "Safe"
  | .hazardous => "Hazardous"
  | .indeterminate => "Indeterminate"

end Hazard

namespace Tree

/-- Something that an expression reads openly. -/
inductive Reading (ν : Type := String) where
  | var (name : ν)
  | member
deriving DecidableEq, Inhabited

section

variable {ν : Type}

mutual

/-- What an expression reads openly, in evaluation order. -/
def Expr.readings : Expr ν → List (Reading ν)
  | .int _ _ | .bool _ _ | .str _ _ | .null _ | .self _ => []
  | .ident _ n => [.var n]
  | .field _ _ _ => [.member]
  | .index _ r i => Expr.readings r ++ Expr.readings i
  | .call _ none _ args => Expr.readingsAll args
  | .call _ (some _) _ args => .member :: Expr.readingsAll args
  | .create _ _ args => Expr.readingsAll args
  | .unary _ _ e => Expr.readings e
  | .binary _ _ l r => Expr.readings l ++ Expr.readings r
  | .conditional _ c t e => Expr.readings c ++ Expr.readings t ++ Expr.readings e
  | .assign _ t v => Expr.readings t ++ Expr.readings v

def Expr.readingsAll : List (Expr ν) → List (Reading ν)
  | [] => []
  | e :: es => Expr.readings e ++ Expr.readingsAll es

end

end

end Tree

namespace Hazard

open TupleAssign.Tree (Expr Reading)

variable {ν : Type} [DecidableEq ν]

/-- Whether a reading is of a forbidden variable. -/
def forbids (forbidden : List ν) : Reading ν → Bool
  | .var n => forbidden.contains n
  | .member => false

def classify (forbidden : List ν) (e : Expr ν) : Hazard :=
  let rs := e.readings
  if rs.any (forbids forbidden) then .hazardous
  else if rs.isEmpty then .indeterminate
  else .safe

/-- Classifies the values from left to right. A target is forbidden to the values behind its own,
beside those of `done`. -/
def analyzeAfter (done : List ν) : List ν → List (Expr ν) → List Hazard
  | t :: ts, v :: vs => classify done v :: analyzeAfter (t :: done) ts vs
  | _, _ => []

/-- The hazards of an unpacking, pairing targets with values up to the shorter list. -/
def analyze (targets : List ν) (values : List (Expr ν)) : List Hazard :=
  analyzeAfter [] targets values

end Hazard

end TupleAssign
