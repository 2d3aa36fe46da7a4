import TupleAssign.Desugar
/-!
# The pass as a rewrite of trees

What the pass does, said of plain trees. A unit is gone through in source order, with a `Progress`
carried along. Each statement has a place: it stands directly in a statement list of a method, or it
does not, or it has been replaced already. The first unpacking of a statement that passes all checks
replaces the statement, if it stands in a list; the rest of the statement is still gone through.

There are no ids here, no paths and no splices. That the pass over a store does exactly this is
`desugar_load_refines`.

The names in the trees may be strings, or entries of a table. The two differ in where the names of
temporaries come from: names of a table are entered in it, and the table is carried along.
-/

namespace TupleAssign

/-! ## Names of temporaries -/

namespace TempNames

/-- The first number from `n` on, of the next `tries`, whose name is free. -/
def firstFree (stem : String) (reserved : List String) : (tries n : Nat) → Nat
  | 0, n => n
  | tries + 1, n =>
    if reserved.contains (candidate stem n) then firstFree stem reserved tries (n + 1) else n

/-- The number that the next name gets. -/
def nextFree (t : TempNames) : Nat := firstFree t.stem t.reserved (t.reserved.length + 1) t.next

/-- The names tried on the way to the next one, which comes last. -/
def tried (t : TempNames) : List String :=
  (List.range' t.next (t.nextFree + 1 - t.next)).map (candidate t.stem)

/-- What `allocate` does, said of strings: the next name, and what is left. -/
def take (t : TempNames) : String × TempNames :=
  let text := candidate t.stem t.nextFree
  (text,
    { t with
      next := t.nextFree + 1
      reserved := text :: t.reserved
      allocated := t.allocated + 1 })

end TempNames

/-- The names of temporaries, with the table that they are entered in. -/
structure NameSupply where
  temps : TempNames Name
  names : Interner

def NameSupply.take (s : NameSupply) : Name × NameSupply :=
  let (name, temps, names) := s.temps.allocate s.names
  (name, ⟨temps, names⟩)

/-- Where the names of temporaries come from. -/
class Supply (σ : Type) (ν : outParam Type) where
  take : σ → ν × σ

instance : Supply TempNames String := ⟨TempNames.take⟩

instance : Supply NameSupply Name := ⟨NameSupply.take⟩

@[simp]
theorem supply_take (t : TempNames) : Supply.take t = t.take := rfl

/-! ## Imports still needed -/

namespace DeadImports

open TupleAssign.Tree (Site)

/-- A receiver-less call of the marker method. -/
def isBareCall (m : Marker) : Site → Bool
  | .expr (.call _ none n _) => n == m.method
  | _ => false

/-- An identifier or a class type spelled as the simple name of the owner. -/
def namesOwner (m : Marker) : Site → Bool
  | .expr (.ident _ n) => n == m.ownerSimpleName
  | .type (.named n _) => n == m.ownerSimpleName
  | _ => false

/-- Whether nothing in the unit needs the imports behind a form any more. -/
def isUnused (m : Marker) (u : Tree.CompilationUnit) : Form → Bool
  | .bare => !(Tree.sites u).any (isBareCall m)
  | .simple => !(Tree.sites u).any (namesOwner m)
  | .qualified => false

end DeadImports

namespace Rewrite

open TupleAssign.Tree (Ty Expr Stmt Arm)
open Desugar (checkTargets tempTypes)

structure Progress (ν : Type := String) (σ : Type := TempNames) where
  temps : σ
  /-- The declarations in sight. -/
  scopes : Scopes (Ty ν) ν := {}
  used : List Form := []
  problems : List (Problem ν) := []
  transformed : Nat := 0
  skipped : Nat := 0

abbrev PassOf (ν σ : Type) := StateM (Progress ν σ)

abbrev Pass := PassOf String TempNames

section

variable {ν σ : Type}

def inScope {α : Type} (act : PassOf ν σ α) : PassOf ν σ α := do
  modify fun g => { g with scopes := g.scopes.push }
  let a ← act
  modify fun g => { g with scopes := g.scopes.pop }
  return a

def declare (name : ν) (type : Ty ν) (offset : Nat) : PassOf ν σ Unit :=
  modify fun g => { g with scopes := g.scopes.declare name type offset }

end

/-! ## Expansions -/

/-- A target and its value, with the name and type of the temporary that it goes through. -/
structure Step (ν : Type := String) where
  target : ν
  value : Expr ν
  temp : Option (ν × Ty ν)

section

variable {ν σ : Type}

/-- Names the temporaries, in order. -/
def nameSteps [Supply σ ν] (temps : σ) :
    List ν → List (Expr ν) → List (Option (Ty ν)) → List (Step ν) × σ
  | t :: ts, v :: vs, none :: types =>
    let (rest, temps) := nameSteps temps ts vs types
    (⟨t, v, none⟩ :: rest, temps)
  | t :: ts, v :: vs, some type :: types =>
    let (name, temps) := Supply.take temps
    let (rest, temps) := nameSteps temps ts vs types
    (⟨t, v, some (name, type)⟩ :: rest, temps)
  | _, _, _ => ([], temps)

/-- The declaration of the temporary of a step, if it has one. -/
def Step.declaration? (span : Span) (s : Step ν) : Option (Stmt ν) :=
  s.temp.map fun (name, type) => .localVar span type name (some s.value) true

def Step.assignment (span : Span) (s : Step ν) : Stmt ν :=
  let value := match s.temp with
    | none => s.value
    | some (name, _) => .ident span name
  .expr span (.assign span (.ident span s.target) value)

/-- The final temporaries, then the assignments. -/
def expansion (span : Span) (steps : List (Step ν)) : List (Stmt ν) :=
  steps.filterMap (Step.declaration? span) ++ steps.map (Step.assignment span)

end

/-! ## One unpacking -/

/-- How a statement stands. -/
inductive Place (ν : Type := String) where
  /-- Not directly in a statement list. -/
  | fixed
  | listed
  | replaced (stmts : List (Stmt ν))

section

variable {ν σ : Type}

/-- What stands at a place in a list after a statement has been gone through. -/
def Place.stmts (s : Stmt ν) : Place ν → List (Stmt ν)
  | .replaced ss => ss
  | _ => [s]

/-- Decides on an unpacking in a statement at the given place. -/
def handle [DecidableEq ν] [Supply σ ν] (inMethod : Bool) (place : Place ν) (u : Unpacking ν) :
    PassOf ν σ (Place ν) := fun g =>
  match checkTargets inMethod u with
  | .error p => (place, { g with problems := g.problems ++ [p] })
  | .ok targets =>
    match place with
    | .listed =>
      match tempTypes g.scopes u.span targets (Hazard.analyze targets u.values) with
      | .error p => (.listed, { g with problems := g.problems ++ [p] })
      | .ok types =>
        let (steps, temps) := nameSteps g.temps targets u.values types
        (.replaced (expansion u.span steps),
          { g with
            temps
            used := g.used ++ [u.left.form, u.right.form]
            transformed := g.transformed + 1 })
    | place => (place, { g with skipped := g.skipped + 1 })

end

/-! ## Expressions, statements, items -/

section

variable {ν σ : Type} [DecidableEq ν]

section

variable (r : Resolver ν)

mutual

/-- The unpackings of an expression, in source order. One inside another is not among them. -/
def unpackings : Expr ν → List (Unpacking ν)
  | .int _ _ | .bool _ _ | .str _ _ | .null _ | .self _ | .ident _ _ => []
  | .field _ e _ => unpackings e
  | .index _ e i => unpackings e ++ unpackings i
  | .call _ none _ args => unpackingsAll args
  | .call _ (some e) _ args => unpackings e ++ unpackingsAll args
  | .create _ _ args => unpackingsAll args
  | .unary _ _ e => unpackings e
  | .binary _ _ a b => unpackings a ++ unpackings b
  | .conditional _ c t e => unpackings c ++ (unpackings t ++ unpackings e)
  | .assign s t v =>
    match r.unpacking? (.assign s t v) with
    | some u => [u]
    | none => unpackings t ++ unpackings v

def unpackingsAll : List (Expr ν) → List (Unpacking ν)
  | [] => []
  | e :: es => unpackings e ++ unpackingsAll es

end

/-- The unpackings of an expression that may be absent. -/
def unpackings? (o : Option (Expr ν)) : List (Unpacking ν) := o.toList.flatMap (unpackings r)

@[simp]
theorem unpackings?_some (e : Expr ν) : unpackings? r (some e) = unpackings r e := by
  rw [unpackings?, Option.toList_some, List.flatMap_singleton]

variable [Supply σ ν] (inMethod : Bool)

/-- Goes through an expression of a statement at the given place. -/
def expr (place : Place ν) (e : Expr ν) : PassOf ν σ (Place ν) :=
  (unpackings r e).foldlM (handle inMethod) place

def expr? (place : Place ν) (o : Option (Expr ν)) : PassOf ν σ (Place ν) :=
  (unpackings? r o).foldlM (handle inMethod) place

mutual

/-- Goes through a statement: how it stands now, and the statement with its lists rewritten. -/
def stmt (place : Place ν) : Stmt ν → PassOf ν σ (Place ν × Stmt ν)
  | .expr s e => do
    let place ← expr r inMethod place e
    return (place, .expr s e)
  | .localVar s t n init isFinal => do
    declare n t s.start
    let place ← expr? r inMethod place init
    return (place, .localVar s t n init isFinal)
  | .block s ss => do
    let ss ← inScope (stmts ss)
    return (place, .block s ss)
  | .ifElse s c t none => do
    let place ← expr r inMethod place c
    let (_, t) ← inScope (stmt .fixed t)
    return (place, .ifElse s c t none)
  | .ifElse s c t (some e) => do
    let place ← expr r inMethod place c
    let (_, t) ← inScope (stmt .fixed t)
    let (_, e) ← inScope (stmt .fixed e)
    return (place, .ifElse s c t (some e))
  | .whileLoop s c b => do
    let place ← expr r inMethod place c
    let (_, b) ← inScope (stmt .fixed b)
    return (place, .whileLoop s c b)
  | .switch s sel as => do
    let place ← expr r inMethod place sel
    let (place, as) ← inScope (arms place as)
    return (place, .switch s sel as)
  | .returnWith s v => do
    let place ← expr? r inMethod place v
    return (place, .returnWith s v)
  | .breakOut s => return (place, .breakOut s)
  | .continueOn s => return (place, .continueOn s)
  | .empty s => return (place, .empty s)

/-- Rewrites a statement list. -/
def stmts : List (Stmt ν) → PassOf ν σ (List (Stmt ν))
  | [] => return []
  | s :: ss => do
    let (place, s) ← stmt .listed s
    let ss ← stmts ss
    return place.stmts s ++ ss

/-- Goes through the arms of a switch at the given place. -/
def arms (place : Place ν) : List (Arm ν) → PassOf ν σ (Place ν × List (Arm ν))
  | [] => return (place, [])
  | .mk label ss :: as => do
    let place ← expr? r inMethod place label
    let ss ← stmts ss
    let (place, as) ← arms place as
    return (place, .mk label ss :: as)

end

end

section

variable [Supply σ ν] (r : Resolver ν)

def body (inMethod : Bool) (b : Tree.Body ν) : PassOf ν σ (Tree.Body ν) := do
  let ss ← inScope (stmts r inMethod b.stmts)
  return { b with stmts := ss }

def body? : Option (Tree.Body ν) → PassOf ν σ (Option (Tree.Body ν))
  | none => return none
  | some b => do return some (← body r true b)

def member : Tree.Member ν → PassOf ν σ (Tree.Member ν)
  | .field f => do
    let _ ← expr? r false .fixed f.init
    return .field f
  | .method d => do
    let b ← inScope do
      d.params.forM fun p => declare p.name p.type p.span.start
      body? r d.body
    return .method { d with body := b }
  | .initializer i => do
    let b ← body r false i.body
    return .initializer { i with body := b }

/-- The fields of a class are declared before any of its members is gone through. -/
def declareField : Tree.Member ν → PassOf ν σ Unit
  | .field f => declare f.name f.type f.span.start
  | _ => return

def cls (c : Tree.Class ν) : PassOf ν σ (Tree.Class ν) :=
  inScope do
    c.members.forM declareField
    return { c with members := ← c.members.mapM (member r) }

end

end

/-! ## Imports -/

/-- Takes out the imports that serve one of the forms, form by form: those taken out and those
left. -/
def removeServing (m : Marker) : List Form → List Tree.Import → List Tree.Import × List Tree.Import
  | [], imports => ([], imports)
  | form :: forms, imports =>
    let serves := fun i : Tree.Import => DeadImports.servesForm m i i.path form
    let (removed, left) := removeServing m forms (imports.filter fun i => !serves i)
    (imports.filter serves ++ removed, left)

/-! ## The pass -/

def start (config : DesugarConfig) (u : Tree.CompilationUnit) : Progress where
  temps := { stem := config.stem, reserved := Tree.identifiers u }

/-- Rewrites the classes of a unit. -/
def classes (config : DesugarConfig) (u : Tree.CompilationUnit) : List Tree.Class × Progress :=
  (u.classes.mapM (cls (Resolver.ofImports config.marker u.imports))).run (start config u)

/-- Rewrites a unit: its outcome, and the unit with its unpackings replaced and without the imports
that nothing needs any more. -/
def run (config : DesugarConfig) (u : Tree.CompilationUnit) :
    Outcome String × Tree.CompilationUnit :=
  let (classes, g) := classes config u
  let u := { u with classes }
  let dead := Form.all.filter fun f => g.used.contains f && DeadImports.isUnused config.marker u f
  let (removed, left) := removeServing config.marker dead u.imports
  ({
    transformed := g.transformed
    temporaries := g.temps.allocated
    skipped := g.skipped
    markers := (Form.all.filter g.used.contains).map (Form.spelling config.marker)
    removedImports := removed.map (·.path)
    problems := g.problems },
    { u with imports := left })

/-- A method that swaps its two parameters: `tuple(a, b) = tuple(b, a)`. -/
def swapUnit : Tree.CompilationUnit where
  package := "p"
  imports := [{ path := "lombok.Tuple.tuple", isStatic := true }]
  classes := [{
    name := "C"
    members := [.method {
      name := "swap"
      params := [
        { type := .primitive .int, name := "a", span := ⟨1, 2⟩ },
        { type := .primitive .int, name := "b", span := ⟨3, 4⟩ }]
      body := some {
        stmts := [.expr ⟨5, 9⟩ (.assign ⟨5, 9⟩
          (.call ⟨5, 6⟩ none "tuple" [.ident ⟨5, 5⟩ "a", .ident ⟨5, 6⟩ "b"])
          (.call ⟨7, 8⟩ none "tuple" [.ident ⟨7, 7⟩ "b", .ident ⟨7, 8⟩ "a"]))] } }] }]

-- The second value reads the first target, so it goes through a temporary.
example : (run {} swapUnit).1 = {
    transformed := 1, temporaries := 1, skipped := 0, markers := ["tuple"]
    removedImports := ["lombok.Tuple.tuple"], problems := [] } := by
  decide +kernel

end Rewrite

end TupleAssign
