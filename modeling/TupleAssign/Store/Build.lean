import TupleAssign.Store
/-!
# Building nodes

Constructors for nodes that come with child lists or with further nodes. The lists are entered
before the node that owns them. Every node gets the span that is passed in.
-/

namespace TupleAssign.Build

open Store

def expr (span : Span) (kind : Node.ExprKind) : StateM Store ExprId := allocExpr ⟨kind, span⟩

def call (span : Span) (receiver : Option ExprId) (method : Name) (args : List ExprId) :
    StateM Store ExprId := do
  expr span (.call receiver method (← allocExprList args))

def create (span : Span) (type : TypeId) (args : List ExprId) : StateM Store ExprId := do
  expr span (.create type (← allocExprList args))

def stmt (span : Span) (kind : Node.StmtKind) : StateM Store StmtId := allocStmt ⟨kind, span⟩

/-- The statement `name = value;`. -/
def assignStmt (span : Span) (name : Name) (value : ExprId) : StateM Store StmtId := do
  let target ← expr span (.ident name)
  let assign ← expr span (.assign target value)
  stmt span (.expr assign)

def block (span : Span) (stmts : List StmtId) : StateM Store Node.Block := do
  return ⟨← allocStmtList stmts, span⟩

def blockStmt (span : Span) (stmts : List StmtId) : StateM Store StmtId := do
  stmt span (.block (← block span stmts))

/-- A switch with the given arms. Their statement lists are entered first, in order, and then the
arms side by side. -/
def switchStmt (span : Span) (selector : ExprId) (arms : List (Option ExprId × List StmtId)) :
    StateM Store StmtId := do
  let built ← arms.mapM fun (label, stmts) => do
    return (⟨label, ← allocStmtList stmts, span⟩ : Node.Arm)
  stmt span (.switch selector (← allocArms built))

def namedType (name : Name) (args : List TypeId) : StateM Store TypeId := do
  allocType (.named name (← allocTypeList args))

end TupleAssign.Build
