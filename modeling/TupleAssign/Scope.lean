/-!
# Scopes

The scopes open at some point of a walk, innermost first, each with its declarations, latest first.
A look-up is made at an offset and sees only declarations that start before it.
-/

namespace TupleAssign

structure Declaration (τ : Type) (ν : Type := String) where
  name : ν
  type : τ
  offset : Nat
deriving DecidableEq

/-- Open scopes, in which names of a type `ν` are declared with types `τ`. -/
structure Scopes (τ : Type) (ν : Type := String) where
  frames : List (List (Declaration τ ν)) := []
deriving DecidableEq

namespace Scopes

variable {τ ν : Type}

instance : Inhabited (Scopes τ ν) := ⟨{}⟩

def depth (s : Scopes τ ν) : Nat := s.frames.length

def push (s : Scopes τ ν) : Scopes τ ν := ⟨[] :: s.frames⟩

/-- Closes the innermost scope; with none open nothing happens. -/
def pop (s : Scopes τ ν) : Scopes τ ν := ⟨s.frames.tail⟩

/-- Adds to the innermost scope; with none open nothing happens. -/
def declare (s : Scopes τ ν) (name : ν) (type : τ) (offset : Nat) : Scopes τ ν :=
  match s.frames with
  | [] => s
  | f :: fs => ⟨(⟨name, type, offset⟩ :: f) :: fs⟩

/-- The type declared for `name` as seen from an offset: the innermost scope that has a visible
declaration decides, and in it the latest. -/
def resolve [DecidableEq ν] (s : Scopes τ ν) (name : ν) (offset : Nat) : Option τ :=
  s.frames.findSome? fun f =>
    (f.find? fun d => d.name == name && d.offset < offset).map (·.type)

@[simp]
theorem pop_push (s : Scopes τ ν) : s.push.pop = s := rfl

@[simp]
theorem pop_declare (s : Scopes τ ν) (name : ν) (type : τ) (offset : Nat) :
    (s.declare name type offset).pop = s.pop := by
  unfold declare
  split <;> simp_all [pop]

end Scopes

end TupleAssign
