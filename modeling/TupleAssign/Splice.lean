import TupleAssign.Store
/-!
# Splicing statements

Three things hold an ordered statement list: a block, a switch arm and a method body. A walk keeps
the path from a class member down to where it is. From that path `locate` finds the statement to
replace, provided it stands directly in such a list; `splice` replaces it.
-/

namespace TupleAssign

/-- The owner of a statement list. -/
inductive Container where
  | block (id : StmtId)
  | arm (id : ArmId)
  | body (method : MethodRef)
deriving DecidableEq, Inhabited

/-- One step of a path. -/
inductive Frame where
  | method (method : MethodRef)
  | initializer
  | fieldInit
  | container (c : Container)
  | stmt (id : StmtId)
  | expr (id : ExprId)
deriving DecidableEq, Inhabited

/-- The ancestors of a node, innermost first. -/
abbrev Path := List Frame

/-- Why there is no list in which a statement could be replaced. -/
inductive Unsupported where
  /-- No statement encloses the node. -/
  | noStatement
  /-- The statement is, say, the unbraced branch of an `if`. -/
  | notAContainer
  /-- The statement is no longer in the list of its container. -/
  | detached
deriving DecidableEq, Inhabited

def Unsupported.label : Unsupported → String
  | .noStatement => "NoStatement"
  | .notAContainer => "NotAContainer"
  | .detached => "Detached"

structure Location where
  container : Container
  stmt : StmtId
  /-- The first index of the statement in the list of the container. -/
  position : Nat
deriving DecidableEq, Inhabited

/-- A list with every occurrence of a statement exchanged for others. -/
def exchange (stmt : StmtId) (replacement : List StmtId) (stmts : List StmtId) : List StmtId :=
  stmts.flatMap fun s => if s = stmt then replacement else [s]

namespace Path

/-- The method in whose body a path ends. Initializers are not method bodies. -/
def enclosingMethod? : Path → Option MethodRef
  | [] => none
  | .method m :: _ => some m
  | .initializer :: _ => none
  | .fieldInit :: _ => none
  | _ :: p => enclosingMethod? p

/-- The innermost statement of a path and the container around it, which has to be the next
frame. -/
def anchor : Path → Except Unsupported (StmtId × Container)
  | [] => .error .noStatement
  | .stmt id :: .container c :: _ => .ok (id, c)
  | .stmt _ :: _ => .error .notAContainer
  | _ :: p => anchor p

end Path

namespace Program

/-- The statement list of a container; none if the statement is no block or the method has no
body. -/
def containerStmts? (p : Program) : Container → Except Fault (Option (Slice .stmt))
  | .block id => do
    match (← p.store.stmt id).kind with
    | .block b => return some b.stmts
    | _ => return none
  | .arm id => return some (← p.store.arm id).stmts
  | .body m => return (p.unit.method? m).bind fun d => d.body.map (·.stmts)

/-- Where the statement at the end of a path would be replaced. -/
def locate (p : Program) (path : Path) : Except Fault (Except Unsupported Location) :=
  match path.anchor with
  | .error u => return .error u
  | .ok (stmt, container) => do
    match ← p.containerStmts? container with
    | none => return .error .notAContainer
    | some slice =>
      match (← p.store.stmtList slice).idxOf? stmt with
      | none => return .error .detached
      | some position => return .ok ⟨container, stmt, position⟩

/-- Points a container at another slice; its span stays. -/
def setContainerStmts (p : Program) (c : Container) (stmts : Slice .stmt) :
    Except Fault (Except Unsupported Program) :=
  match c with
  | .block id => do
    match (← p.store.stmt id).kind with
    | .block b =>
      return .ok { p with store := ← p.store.setStmtKind id (.block { b with stmts }) }
    | _ => return .error .notAContainer
  | .arm id => return .ok { p with store := ← p.store.setArmStmts id stmts }
  | .body m =>
    match (p.unit.method? m).bind (·.body) with
    | some b => return .ok { p with unit := p.unit.setBody m { b with stmts } }
    | none => return .error .notAContainer

/-- Gives a container a new statement list, entered behind all others; the old list stays. The new
one stays too if nothing can be pointed at it. -/
def relist (p : Program) (c : Container) (stmts : List StmtId) :
    Except Fault (Except Unsupported (Slice .stmt) × Program) := do
  let (slice, store) := (Store.allocStmtList stmts).run p.store
  let p := { p with store }
  match ← p.setContainerStmts c slice with
  | .error u => return (.error u, p)
  | .ok p => return (.ok slice, p)

/-- Replaces a statement in the list of a container, wherever it occurs there. Then it is checked
that one statement gave way to the replacement and nothing else changed. -/
def splice (p : Program) (c : Container) (stmt : StmtId) (replacement : List StmtId) :
    Except Fault (Except Unsupported (Slice .stmt) × Program) := do
  match ← p.containerStmts? c with
  | none => return (.error .notAContainer, p)
  | some old => do
    let before ← p.store.stmtList old
    let after := exchange stmt replacement before
    match ← p.relist c after with
    | (.error u, p) => return (.error u, p)
    | (.ok slice, p) =>
      match checkSplice before after stmt replacement with
      | .error e => throw (.badSplice e)
      | .ok () => return (.ok slice, p)

end Program

end TupleAssign
