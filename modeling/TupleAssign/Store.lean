import TupleAssign.Interner
import TupleAssign.Item
import TupleAssign.Operator
import TupleAssign.Splice.Check
/-!
# The node store

The nodes of one unit live in tables and refer to each other by id. Child lists are kept in list
tables of their own, of which a node holds a slice. Tables only grow; an edit of a statement list
writes a new list and points its owner at it. Of a node that is in place only a statement's kind and
the statement list of a switch arm can be exchanged.

A read outside a table is a fault, never a default value.
-/

namespace TupleAssign

/-- Why an operation on a store could not go on. -/
inductive Fault where
  | noNode (sort : NodeSort) (index : Nat)
  | noSlice (sort : NodeSort) (start len : Nat)
  /-- A slice of switch arms reaches past the largest id. -/
  | idOverflow
  /-- A node contains itself. -/
  | cycle
  | badSplice (error : SpliceError)
deriving DecidableEq, Inhabited

/-! ## Nodes -/

namespace Node

inductive Ty where
  | primitive (p : Primitive)
  | named (name : Name) (args : Slice .type)
  | array (elem : TypeId)
deriving DecidableEq, Inhabited

inductive ExprKind where
  | int (value : Int)
  | bool (value : Bool)
  | str (value : Name)
  | null
  | self
  | ident (name : Name)
  | field (receiver : ExprId) (name : Name)
  | index (receiver index : ExprId)
  | call (receiver : Option ExprId) (method : Name) (args : Slice .expr)
  | create (type : TypeId) (args : Slice .expr)
  | unary (op : UnaryOp) (operand : ExprId)
  | binary (op : BinaryOp) (left right : ExprId)
  | conditional (cond thenExpr elseExpr : ExprId)
  | assign (target value : ExprId)
deriving DecidableEq, Inhabited

structure Expr where
  kind : ExprKind
  span : Span
deriving DecidableEq, Inhabited

/-- A braced statement list. -/
structure Block where
  stmts : Slice .stmt
  span : Span
deriving DecidableEq, Inhabited

inductive StmtKind where
  | expr (e : ExprId)
  | localVar (type : TypeId) (name : Name) (init : Option ExprId) (isFinal : Bool)
  | block (b : Block)
  | ifElse (cond : ExprId) (thenBranch : StmtId) (elseBranch : Option StmtId)
  | whileLoop (cond : ExprId) (body : StmtId)
  | switch (selector : ExprId) (arms : Slice .arm)
  | returnWith (value : Option ExprId)
  | breakOut
  | continueOn
  | empty
deriving DecidableEq, Inhabited

structure Stmt where
  kind : StmtKind
  span : Span
deriving DecidableEq, Inhabited

/-- One arm of a switch; the arm without a label is the default one. -/
structure Arm where
  label : Option ExprId
  stmts : Slice .stmt
  span : Span
deriving DecidableEq, Inhabited

def Arm.isDefault (a : Arm) : Bool := a.label.isNone

def ExprKind.isIdent : ExprKind → Bool
  | .ident _ => true
  | _ => false

abbrev Import := TupleAssign.Import Name
abbrev Param := TupleAssign.Param Name TypeId
abbrev Field := TupleAssign.Field Name TypeId ExprId
abbrev Method := TupleAssign.Method Name TypeId Block
abbrev Initializer := TupleAssign.Initializer Block
abbrev Member := TupleAssign.Member Name TypeId ExprId Block
abbrev Class := TupleAssign.Class Name TypeId ExprId Block
abbrev CompilationUnit := TupleAssign.CompilationUnit Name TypeId ExprId Block

end Node

/-- The tables. -/
structure Store where
  exprs : Array Node.Expr := #[]
  stmts : Array Node.Stmt := #[]
  arms : Array Node.Arm := #[]
  types : Array Node.Ty := #[]
  exprLists : Array ExprId := #[]
  stmtLists : Array StmtId := #[]
  typeLists : Array TypeId := #[]
deriving DecidableEq, Inhabited

/-- The entries of a table that a slice covers; a slice that ends behind the table is a fault, an
empty one too. -/
def Slice.read {s : NodeSort} {α : Type} (r : Slice s) (table : Array α) : Except Fault (List α) :=
  if r.stop ≤ table.size then .ok (table.extract r.start r.stop).toList
  else .error (.noSlice s r.start r.len)

/-- The ids of the first `count` nodes of a slice of consecutive nodes. -/
def Slice.ids {s : NodeSort} (r : Slice s) (count : Nat) : Except Fault (List (NodeId s)) :=
  (List.range (min count r.len)).mapM fun i =>
    if r.start + i ≤ absentRaw then .ok ⟨r.start + i⟩ else .error .idOverflow

namespace Store

/-! ## Reading -/

def expr (st : Store) (id : ExprId) : Except Fault Node.Expr :=
  match st.exprs[id.index]? with
  | some e => .ok e
  | none => .error (.noNode .expr id.index)

def stmt (st : Store) (id : StmtId) : Except Fault Node.Stmt :=
  match st.stmts[id.index]? with
  | some s => .ok s
  | none => .error (.noNode .stmt id.index)

def arm (st : Store) (id : ArmId) : Except Fault Node.Arm :=
  match st.arms[id.index]? with
  | some a => .ok a
  | none => .error (.noNode .arm id.index)

def type (st : Store) (id : TypeId) : Except Fault Node.Ty :=
  match st.types[id.index]? with
  | some t => .ok t
  | none => .error (.noNode .type id.index)

def exprList (st : Store) (r : Slice .expr) : Except Fault (List ExprId) := r.read st.exprLists

def stmtList (st : Store) (r : Slice .stmt) : Except Fault (List StmtId) := r.read st.stmtLists

def typeList (st : Store) (r : Slice .type) : Except Fault (List TypeId) := r.read st.typeLists

/-! ## Growing -/

def allocExpr (e : Node.Expr) : StateM Store ExprId := fun st =>
  (⟨st.exprs.size⟩, { st with exprs := st.exprs.push e })

def allocStmt (s : Node.Stmt) : StateM Store StmtId := fun st =>
  (⟨st.stmts.size⟩, { st with stmts := st.stmts.push s })

def allocType (t : Node.Ty) : StateM Store TypeId := fun st =>
  (⟨st.types.size⟩, { st with types := st.types.push t })

/-- Enters switch arms one behind the other. -/
def allocArms (as : List Node.Arm) : StateM Store (Slice .arm) := fun st =>
  (⟨st.arms.size, as.length⟩, { st with arms := st.arms ++ as.toArray })

def allocExprList (ids : List ExprId) : StateM Store (Slice .expr) := fun st =>
  (⟨st.exprLists.size, ids.length⟩, { st with exprLists := st.exprLists ++ ids.toArray })

def allocStmtList (ids : List StmtId) : StateM Store (Slice .stmt) := fun st =>
  (⟨st.stmtLists.size, ids.length⟩, { st with stmtLists := st.stmtLists ++ ids.toArray })

def allocTypeList (ids : List TypeId) : StateM Store (Slice .type) := fun st =>
  (⟨st.typeLists.size, ids.length⟩, { st with typeLists := st.typeLists ++ ids.toArray })

/-! ## Exchanging -/

/-- Gives a statement another kind; it keeps its span. -/
def setStmtKind (st : Store) (id : StmtId) (kind : Node.StmtKind) : Except Fault Store := do
  let s ← st.stmt id
  return { st with stmts := st.stmts.setIfInBounds id.index { s with kind } }

/-- Points a switch arm at another statement list; it keeps its label and span. -/
def setArmStmts (st : Store) (id : ArmId) (stmts : Slice .stmt) : Except Fault Store := do
  let a ← st.arm id
  return { st with arms := st.arms.setIfInBounds id.index { a with stmts } }

end Store

/-- A unit together with the store that its items refer to. -/
structure Program where
  unit : Node.CompilationUnit := { package := .empty }
  store : Store := {}
deriving DecidableEq, Inhabited

end TupleAssign
