import TupleAssign.Store
import TupleAssign.Tree
/-!
# Reading trees back

The tree at an id of a store, with its names as they are or spelled out. Reading follows ids
downwards and would not end in a store whose nodes contain themselves, so it takes a number of
levels: a path that meets no node twice is no longer than the table.
-/

namespace TupleAssign.Store

section

variable {ν : Type} (st : Store) (spell : Name → ν)

def readTypeTo : Nat → TypeId → Except Fault (Tree.Ty ν)
  | 0, _ => .error .cycle
  | levels + 1, id => do
    match ← st.type id with
    | .primitive p => return .primitive p
    | .named n args => do
      let ids ← st.typeList args
      return .named (spell n) (← ids.mapM (readTypeTo levels))
    | .array elem => return .array (← readTypeTo levels elem)

def readType (id : TypeId) : Except Fault (Tree.Ty ν) := st.readTypeTo spell (st.types.size + 1) id

def readExprTo : Nat → ExprId → Except Fault (Tree.Expr ν)
  | 0, _ => .error .cycle
  | levels + 1, id => do
    let ⟨kind, span⟩ ← st.expr id
    match kind with
    | .int v => return .int span v
    | .bool v => return .bool span v
    | .str v => return .str span (spell v)
    | .null => return .null span
    | .self => return .self span
    | .ident n => return .ident span (spell n)
    | .field r n => return .field span (← readExprTo levels r) (spell n)
    | .index r i => return .index span (← readExprTo levels r) (← readExprTo levels i)
    | .call r n args => do
      let r ← r.mapM (readExprTo levels)
      let ids ← st.exprList args
      return .call span r (spell n) (← ids.mapM (readExprTo levels))
    | .create t args => do
      let t ← st.readType spell t
      let ids ← st.exprList args
      return .create span t (← ids.mapM (readExprTo levels))
    | .unary op e => return .unary span op (← readExprTo levels e)
    | .binary op l r => return .binary span op (← readExprTo levels l) (← readExprTo levels r)
    | .conditional c t e =>
      return .conditional span (← readExprTo levels c) (← readExprTo levels t)
        (← readExprTo levels e)
    | .assign t v => return .assign span (← readExprTo levels t) (← readExprTo levels v)

def readExpr (id : ExprId) : Except Fault (Tree.Expr ν) := st.readExprTo spell (st.exprs.size + 1) id

def readStmtTo : Nat → StmtId → Except Fault (Tree.Stmt ν)
  | 0, _ => .error .cycle
  | levels + 1, id => do
    let ⟨kind, span⟩ ← st.stmt id
    match kind with
    | .expr e => return .expr span (← st.readExpr spell e)
    | .localVar t n init isFinal => do
      let t ← st.readType spell t
      return .localVar span t (spell n) (← init.mapM (st.readExpr spell)) isFinal
    | .block b => do
      let ids ← st.stmtList b.stmts
      return .block span (← ids.mapM (readStmtTo levels))
    | .ifElse c t e => do
      let c ← st.readExpr spell c
      let t ← readStmtTo levels t
      return .ifElse span c t (← e.mapM (readStmtTo levels))
    | .whileLoop c b => return .whileLoop span (← st.readExpr spell c) (← readStmtTo levels b)
    | .switch sel arms => do
      let sel ← st.readExpr spell sel
      let ids ← arms.ids arms.len
      let arms ← ids.mapM fun id => do
        let a ← st.arm id
        let label ← a.label.mapM (st.readExpr spell)
        let ids ← st.stmtList a.stmts
        return Tree.Arm.mk label (← ids.mapM (readStmtTo levels))
      return .switch span sel arms
    | .returnWith v => return .returnWith span (← v.mapM (st.readExpr spell))
    | .breakOut => return .breakOut span
    | .continueOn => return .continueOn span
    | .empty => return .empty span

def readStmt (id : StmtId) : Except Fault (Tree.Stmt ν) := st.readStmtTo spell (st.stmts.size + 1) id

def readStmts (r : Slice .stmt) : Except Fault (List (Tree.Stmt ν)) := do
  (← st.stmtList r).mapM (st.readStmt spell)

def readBody (b : Node.Block) : Except Fault (Tree.Body ν) := do
  return { stmts := ← st.readStmts spell b.stmts, span := b.span }

end

end TupleAssign.Store

namespace TupleAssign

/-- The tree of an expression as it is stored. -/
def Store.exprTree (st : Store) (id : ExprId) : Except Fault (Tree.Expr Name) :=
  st.readExpr (fun n => n) id

/-- The tree of a unit, its names spelled as the table says. -/
def Program.read (p : Program) (names : Interner) : Except Fault Tree.CompilationUnit :=
  p.unit.traverse (fun n => .ok (names.lookup n)) (p.store.readType names.lookup)
    (p.store.readExpr names.lookup) (p.store.readBody names.lookup)

end TupleAssign
