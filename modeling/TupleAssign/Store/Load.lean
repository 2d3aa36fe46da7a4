import TupleAssign.Store.Build
import TupleAssign.Tree
/-!
# Loading trees

Enters a tree into a store, children before parents, each node once, and its strings into the
interner. A block and its statement list share a span, and so do a switch and its arms.
-/

namespace TupleAssign

/-- Where a tree is loaded to. -/
structure Workspace where
  names : Interner := {}
  store : Store := {}
deriving DecidableEq, Inhabited

abbrev Load := StateM Workspace

namespace Load

def name (s : String) : Load Name := fun w =>
  let (n, names) := w.names.intern s
  (n, { w with names })

def build {α : Type} (b : StateM Store α) : Load α := fun w =>
  let (a, store) := b.run w.store
  (a, { w with store })

mutual

def ty : Tree.Ty → Load TypeId
  | .primitive p => build (Store.allocType (.primitive p))
  | .named n args => do
    let n ← name n
    let args ← tys args
    build (Build.namedType n args)
  | .array elem => do
    let elem ← ty elem
    build (Store.allocType (.array elem))

def tys : List Tree.Ty → Load (List TypeId)
  | [] => pure []
  | t :: ts => do
    let id ← ty t
    let ids ← tys ts
    return id :: ids

end

mutual

def expr : Tree.Expr → Load ExprId
  | .int s v => build (Build.expr s (.int v))
  | .bool s v => build (Build.expr s (.bool v))
  | .str s v => do
    let v ← name v
    build (Build.expr s (.str v))
  | .null s => build (Build.expr s .null)
  | .self s => build (Build.expr s .self)
  | .ident s n => do
    let n ← name n
    build (Build.expr s (.ident n))
  | .field s r n => do
    let r ← expr r
    let n ← name n
    build (Build.expr s (.field r n))
  | .index s r i => do
    let r ← expr r
    let i ← expr i
    build (Build.expr s (.index r i))
  | .call s none n args => do
    let n ← name n
    let args ← exprs args
    build (Build.call s none n args)
  | .call s (some r) n args => do
    let r ← expr r
    let n ← name n
    let args ← exprs args
    build (Build.call s (some r) n args)
  | .create s t args => do
    let t ← ty t
    let args ← exprs args
    build (Build.create s t args)
  | .unary s op e => do
    let e ← expr e
    build (Build.expr s (.unary op e))
  | .binary s op l r => do
    let l ← expr l
    let r ← expr r
    build (Build.expr s (.binary op l r))
  | .conditional s c t e => do
    let c ← expr c
    let t ← expr t
    let e ← expr e
    build (Build.expr s (.conditional c t e))
  | .assign s t v => do
    let t ← expr t
    let v ← expr v
    build (Build.expr s (.assign t v))

def exprs : List Tree.Expr → Load (List ExprId)
  | [] => pure []
  | e :: es => do
    let id ← expr e
    let ids ← exprs es
    return id :: ids

end

def expr? : Option Tree.Expr → Load (Option ExprId)
  | none => pure none
  | some e => do return some (← expr e)

mutual

def stmt : Tree.Stmt → Load StmtId
  | .expr s e => do
    let e ← expr e
    build (Build.stmt s (.expr e))
  | .localVar s t n init isFinal => do
    let t ← ty t
    let n ← name n
    let init ← expr? init
    build (Build.stmt s (.localVar t n init isFinal))
  | .block s body => do
    let ids ← stmts body
    build (Build.blockStmt s ids)
  | .ifElse s c t none => do
    let c ← expr c
    let t ← stmt t
    build (Build.stmt s (.ifElse c t none))
  | .ifElse s c t (some e) => do
    let c ← expr c
    let t ← stmt t
    let e ← stmt e
    build (Build.stmt s (.ifElse c t (some e)))
  | .whileLoop s c b => do
    let c ← expr c
    let b ← stmt b
    build (Build.stmt s (.whileLoop c b))
  | .switch s sel as => do
    let sel ← expr sel
    let as ← arms as
    build (Build.switchStmt s sel as)
  | .returnWith s v => do
    let v ← expr? v
    build (Build.stmt s (.returnWith v))
  | .breakOut s => build (Build.stmt s .breakOut)
  | .continueOn s => build (Build.stmt s .continueOn)
  | .empty s => build (Build.stmt s .empty)

def stmts : List Tree.Stmt → Load (List StmtId)
  | [] => pure []
  | s :: ss => do
    let id ← stmt s
    let ids ← stmts ss
    return id :: ids

def arms : List Tree.Arm → Load (List (Option ExprId × List StmtId))
  | [] => pure []
  | .mk label body :: as => do
    let label ← expr? label
    let ids ← stmts body
    let rest ← arms as
    return (label, ids) :: rest

end

def body (b : Tree.Body) : Load Node.Block := do
  let ids ← stmts b.stmts
  build (Build.block b.span ids)

def unit (u : Tree.CompilationUnit) : Load Node.CompilationUnit := u.traverse name ty expr body

end Load

/-- Loads a unit into a store of its own. -/
def Program.load (u : Tree.CompilationUnit) (names : Interner) : Program × Interner :=
  let (unit, w) := (Load.unit u).run { names }
  ({ unit, store := w.store }, w.names)

end TupleAssign
