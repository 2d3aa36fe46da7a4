import TupleAssign.Desugar.State
/-!
# The walk over a unit

Visits a unit in source order, with the path and the open scopes kept in the state, and handles
every unpacking it comes to. It does not look into an unpacking, replaced or not.

Statement lists are read before their statements are visited, so a list that is exchanged on the way
is still visited as it was. As in reading, the number of levels bounds the descent. Names are never
spelled out: the walk compares the names of the table.
-/

namespace TupleAssign.Desugar

abbrev Walk := StateT State (Except Fault)

namespace Walk

def withFrame (f : Frame) (act : Walk Unit) : Walk Unit := do
  modify fun s => { s with path := f :: s.path }
  act
  modify fun s => { s with path := s.path.tail }

def inScope (act : Walk Unit) : Walk Unit := do
  modify fun s => { s with scopes := s.scopes.push }
  act
  modify fun s => { s with scopes := s.scopes.pop }

def declare (name : Name) (type : TypeId) (offset : Nat) : Walk Unit :=
  modify fun s => { s with scopes := s.scopes.declare name type offset }

/-- Reads from the store as it is now. -/
def read {α : Type} (f : Store → Except Fault α) : Walk α := do
  liftExcept (f (← get).program.store)

/-- The ids of the arguments of a call. -/
def argumentIds (id : ExprId) (st : Store) : Except Fault (List ExprId) := do
  match (← st.expr id).kind with
  | .call _ _ args => st.exprList args
  | _ => return []

section

variable (r : Resolver Name)

/-- The unpacking at an assignment, if it is one, with the ids of its values. -/
def unpackingAt? (id value : ExprId) : Walk (Option (Unpacking Name × List ExprId)) := do
  let tree ← read (·.exprTree id)
  match r.unpacking? tree with
  | none => return none
  | some u => return some (u, ← read (argumentIds value))

/-- Handles an unpacking in the state. -/
def handle (u : Unpacking Name) (values : List ExprId) : Walk Unit := do
  set (← (← get).handle u values)

def exprTo : Nat → ExprId → Walk Unit
  | 0, _ => throw .cycle
  | levels + 1, id => withFrame (.expr id) do
    match (← read (·.expr id)).kind with
    | .int _ | .bool _ | .str _ | .null | .self | .ident _ => return
    | .field receiver _ => exprTo levels receiver
    | .index receiver index => do
      exprTo levels receiver
      exprTo levels index
    | .call receiver _ args => do
      receiver.forM (exprTo levels)
      (← read (·.exprList args)).forM (exprTo levels)
    | .create _ args => do
      (← read (·.exprList args)).forM (exprTo levels)
    | .unary _ operand => exprTo levels operand
    | .binary _ left right => do
      exprTo levels left
      exprTo levels right
    | .conditional cond thenExpr elseExpr => do
      exprTo levels cond
      exprTo levels thenExpr
      exprTo levels elseExpr
    | .assign target value => do
      match ← unpackingAt? r id value with
      | some (u, values) => handle u values
      | none => do
        exprTo levels target
        exprTo levels value

def expr (id : ExprId) : Walk Unit := do
  exprTo r ((← get).program.store.exprs.size + 1) id

def stmtTo : Nat → StmtId → Walk Unit
  | 0, _ => throw .cycle
  | levels + 1, id => withFrame (.stmt id) do
    let stmt ← read (·.stmt id)
    match stmt.kind with
    | .expr e => expr r e
    | .localVar type name init _ => do
      declare name type stmt.span.start
      init.forM (expr r)
    | .block b => withFrame (.container (.block id)) do
      inScope do
        (← read (·.stmtList b.stmts)).forM (stmtTo levels)
    | .ifElse cond thenBranch elseBranch => do
      expr r cond
      inScope (stmtTo levels thenBranch)
      elseBranch.forM fun e => inScope (stmtTo levels e)
    | .whileLoop cond body => do
      expr r cond
      inScope (stmtTo levels body)
    | .switch selector arms => do
      expr r selector
      -- The arms of a switch share one scope.
      inScope do
        (← liftExcept (arms.ids arms.len)).forM fun arm => do
          (← read (·.arm arm)).label.forM (expr r)
          let stmts := (← read (·.arm arm)).stmts
          withFrame (.container (.arm arm)) do
            (← read (·.stmtList stmts)).forM (stmtTo levels)
    | .returnWith value => value.forM (expr r)
    | .breakOut | .continueOn | .empty => return

def stmts (slice : Slice .stmt) : Walk Unit := do
  let levels := (← get).program.store.stmts.size + 1
  (← read (·.stmtList slice)).forM (stmtTo r levels)

def method (m : MethodRef) (d : Node.Method) : Walk Unit :=
  withFrame (.method m) do
    inScope do
      d.params.forM fun p => declare p.name p.type p.span.start
      d.body.forM fun b =>
        withFrame (.container (.body m)) do
          inScope (stmts r b.stmts)

def member (m : MethodRef) : Node.Member → Walk Unit
  | .field f => f.init.forM fun e => withFrame .fieldInit (expr r e)
  | .method d => method r m d
  | .initializer i => withFrame .initializer (inScope (stmts r i.body.stmts))

/-- The fields of a class are declared before any of its members is visited. -/
def declareField : Node.Member → Walk Unit
  | .field f => declare f.name f.type f.span.start
  | _ => return

def cls (index : Nat) (c : Node.Class) : Walk Unit :=
  inScope do
    c.members.forM declareField
    c.members.zipIdx.forM fun (d, i) => member r ⟨index, i⟩ d

def unit (u : Node.CompilationUnit) : Walk Unit :=
  u.classes.zipIdx.forM fun (c, i) => cls r i c

end

end Walk

end TupleAssign.Desugar
