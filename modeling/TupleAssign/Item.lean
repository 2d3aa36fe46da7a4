import TupleAssign.Span
/-!
# Items of a compilation unit

Imports, classes and class members. Their shape is the same whether a unit is held as a tree or
refers to a node store, so each item is generic in how names (`ν`), types (`τ`), expressions (`ε`)
and statement bodies (`β`) are represented, and `traverse` changes the representation.
-/

namespace TupleAssign

/-- The path is the full dotted path, without the star of an on-demand import. -/
structure Import (ν : Type) where
  path : ν
  isStatic : Bool := false
  onDemand : Bool := false
  span : Span := {}
deriving DecidableEq

structure Param (ν τ : Type) where
  type : τ
  name : ν
  span : Span := {}
deriving DecidableEq

structure Field (ν τ ε : Type) where
  type : τ
  name : ν
  init : Option ε := none
  isStatic : Bool := false
  span : Span := {}
deriving DecidableEq

/-- A method without a result type returns nothing; one without a body is abstract. -/
structure Method (ν τ β : Type) where
  name : ν
  result : Option τ := none
  params : List (Param ν τ) := []
  body : Option β := none
  isStatic : Bool := false
  span : Span := {}
deriving DecidableEq

/-- A static or instance initializer block, which is not a method body. -/
structure Initializer (β : Type) where
  body : β
  isStatic : Bool := false
  span : Span := {}
deriving DecidableEq

inductive Member (ν τ ε β : Type) where
  | field (f : Field ν τ ε)
  | method (m : Method ν τ β)
  | initializer (i : Initializer β)
deriving DecidableEq

structure Class (ν τ ε β : Type) where
  name : ν
  members : List (Member ν τ ε β) := []
  span : Span := {}
deriving DecidableEq

structure CompilationUnit (ν τ ε β : Type) where
  package : ν
  imports : List (Import ν) := []
  classes : List (Class ν τ ε β) := []
  span : Span := {}
deriving DecidableEq

/-- A method's place in a unit: the index of its class and its index among the members. -/
structure MethodRef where
  cls : Nat
  member : Nat
deriving DecidableEq, Inhabited

section Lookup

variable {ν τ ε β : Type}

def Member.span : Member ν τ ε β → Span
  | .field f => f.span
  | .method m => m.span
  | .initializer i => i.span

namespace CompilationUnit

/-- The method at a place, if there is a member there and it is a method. -/
def method? (u : CompilationUnit ν τ ε β) (r : MethodRef) : Option (Method ν τ β) :=
  match u.classes[r.cls]? with
  | none => none
  | some c =>
    match c.members[r.member]? with
    | some (.method m) => some m
    | _ => none

/-- Gives the method at a place a new body; other members stay as they are. -/
def setBody (u : CompilationUnit ν τ ε β) (r : MethodRef) (body : β) : CompilationUnit ν τ ε β :=
  { u with
    classes := u.classes.modify r.cls fun c =>
      { c with
        members := c.members.modify r.member fun
          | .method m => .method { m with body := some body }
          | other => other } }

end CompilationUnit

end Lookup

/-- An import with another path. -/
def Import.map {ν μ : Type} (f : ν → μ) (i : Import ν) : Import μ := { i with path := f i.path }

/-! ## Changing the representation

The parts of an item are visited in source order. -/

section Traverse

variable {m : Type → Type} [Monad m] {ν τ ε β ν' τ' ε' β' : Type}
variable (name : ν → m ν') (type : τ → m τ') (expr : ε → m ε') (body : β → m β')

def Import.traverse (i : Import ν) : m (Import ν') := do
  return { path := ← name i.path, isStatic := i.isStatic, onDemand := i.onDemand, span := i.span }

def Param.traverse (p : Param ν τ) : m (Param ν' τ') := do
  return { type := ← type p.type, name := ← name p.name, span := p.span }

def Field.traverse (f : Field ν τ ε) : m (Field ν' τ' ε') := do
  return {
    type := ← type f.type, name := ← name f.name, init := ← f.init.mapM expr,
    isStatic := f.isStatic, span := f.span }

def Method.traverse (d : Method ν τ β) : m (Method ν' τ' β') := do
  return {
    result := ← d.result.mapM type, name := ← name d.name,
    params := ← d.params.mapM (Param.traverse name type), body := ← d.body.mapM body,
    isStatic := d.isStatic, span := d.span }

def Initializer.traverse (i : Initializer β) : m (Initializer β') := do
  return { body := ← body i.body, isStatic := i.isStatic, span := i.span }

def Member.traverse : Member ν τ ε β → m (Member ν' τ' ε' β')
  | .field f => do return .field (← f.traverse name type expr)
  | .method d => do return .method (← d.traverse name type body)
  | .initializer i => do return .initializer (← i.traverse body)

def Class.traverse (c : Class ν τ ε β) : m (Class ν' τ' ε' β') := do
  return {
    name := ← name c.name, members := ← c.members.mapM (Member.traverse name type expr body),
    span := c.span }

def CompilationUnit.traverse (u : CompilationUnit ν τ ε β) : m (CompilationUnit ν' τ' ε' β') := do
  return {
    package := ← name u.package, imports := ← u.imports.mapM (Import.traverse name),
    classes := ← u.classes.mapM (Class.traverse name type expr body), span := u.span }

end Traverse

end TupleAssign
