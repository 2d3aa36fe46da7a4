import TupleAssign.Store.Read
import TupleAssign.Tree.Visit
/-!
# Visiting a program

The walk over a unit as it is stored: items as they stand in the unit, types, expressions and
statements by their ids. It comes to the same places as the walk over the tree, in the same order.
As in reading, the number of levels bounds the descent.
-/

namespace TupleAssign

namespace Node

/-- A place that a walk over a program comes to. -/
inductive Site where
  | unit (u : CompilationUnit)
  | importDecl (i : Import)
  | classDecl (c : Class)
  | fieldDecl (f : Field)
  | methodDecl (m : Method)
  | initializerDecl (i : Initializer)
  | param (p : Param)
  | block (b : Block)
  | stmt (id : StmtId) (node : Stmt)
  | expr (id : ExprId) (node : Expr)
  | type (id : TypeId) (node : Ty)
deriving DecidableEq

/-- A site, and then its children if it is entered. -/
def Site.before (s : Site) (enter : Site → Bool) (children : Except Fault (List Site)) :
    Except Fault (List Site) := do
  if enter s then return s :: (← children) else return [s]

/-- The sites of some parts, one part after the other. -/
def visitEach {α : Type} (f : α → Except Fault (List Site)) : List α → Except Fault (List Site)
  | [] => return []
  | a :: as => return (← f a) ++ (← visitEach f as)

/-- The identifier at a site, if there is one. -/
def Site.identifier? : Site → Option Name
  | .classDecl c => some c.name
  | .fieldDecl f => some f.name
  | .methodDecl m => some m.name
  | .param p => some p.name
  | .stmt _ ⟨.localVar _ n _ _, _⟩ => some n
  | .expr _ ⟨.ident n, _⟩ => some n
  | .expr _ ⟨.field _ n, _⟩ => some n
  | .expr _ ⟨.call _ n _, _⟩ => some n
  | .type _ (.named n _) => some n
  | _ => none

end Node

namespace Store

open Node (Site visitEach)

variable (st : Store) (enter : Site → Bool)

def typeVisitsTo : Nat → TypeId → Except Fault (List Site)
  | 0, _ => .error .cycle
  | levels + 1, id => do
    let node ← st.type id
    (Site.type id node).before enter do
      match node with
      | .primitive _ => return []
      | .named _ args => visitEach (typeVisitsTo levels) (← st.typeList args)
      | .array elem => typeVisitsTo levels elem

def typeVisits (id : TypeId) : Except Fault (List Site) :=
  st.typeVisitsTo enter (st.types.size + 1) id

def exprVisitsTo : Nat → ExprId → Except Fault (List Site)
  | 0, _ => .error .cycle
  | levels + 1, id => do
    let node ← st.expr id
    (Site.expr id node).before enter do
      match node.kind with
      | .int _ | .bool _ | .str _ | .null | .self | .ident _ => return []
      | .field receiver _ => exprVisitsTo levels receiver
      | .index receiver index => visitEach (exprVisitsTo levels) [receiver, index]
      | .call receiver _ args =>
        visitEach (exprVisitsTo levels) (receiver.toList ++ (← st.exprList args))
      | .create type args =>
        return (← st.typeVisits enter type) ++
          (← visitEach (exprVisitsTo levels) (← st.exprList args))
      | .unary _ operand => exprVisitsTo levels operand
      | .binary _ left right => visitEach (exprVisitsTo levels) [left, right]
      | .conditional cond thenExpr elseExpr =>
        visitEach (exprVisitsTo levels) [cond, thenExpr, elseExpr]
      | .assign target value => visitEach (exprVisitsTo levels) [target, value]

def exprVisits (id : ExprId) : Except Fault (List Site) :=
  st.exprVisitsTo enter (st.exprs.size + 1) id

def stmtVisitsTo : Nat → StmtId → Except Fault (List Site)
  | 0, _ => .error .cycle
  | levels + 1, id => do
    let node ← st.stmt id
    (Site.stmt id node).before enter do
      match node.kind with
      | .expr e => st.exprVisits enter e
      | .localVar type _ init _ =>
        return (← st.typeVisits enter type) ++ (← visitEach (st.exprVisits enter) init.toList)
      | .block b =>
        (Site.block b).before enter do visitEach (stmtVisitsTo levels) (← st.stmtList b.stmts)
      | .ifElse cond thenBranch elseBranch =>
        return (← st.exprVisits enter cond) ++
          (← visitEach (stmtVisitsTo levels) (thenBranch :: elseBranch.toList))
      | .whileLoop cond body =>
        return (← st.exprVisits enter cond) ++ (← stmtVisitsTo levels body)
      | .switch selector arms =>
        return (← st.exprVisits enter selector) ++
          -- An arm is no site of its own.
          (← visitEach (fun arm => do
            let a ← st.arm arm
            return (← visitEach (st.exprVisits enter) a.label.toList) ++
              (← visitEach (stmtVisitsTo levels) (← st.stmtList a.stmts)))
            (← arms.ids arms.len))
      | .returnWith value => visitEach (st.exprVisits enter) value.toList
      | .breakOut | .continueOn | .empty => return []

def stmtVisits (id : StmtId) : Except Fault (List Site) :=
  st.stmtVisitsTo enter (st.stmts.size + 1) id

def bodyVisits (b : Node.Block) : Except Fault (List Site) :=
  (Site.block b).before enter do visitEach (st.stmtVisits enter) (← st.stmtList b.stmts)

def paramVisits (p : Node.Param) : Except Fault (List Site) :=
  (Site.param p).before enter (st.typeVisits enter p.type)

def memberVisits : Node.Member → Except Fault (List Site)
  | .field f =>
    (Site.fieldDecl f).before enter do
      return (← st.typeVisits enter f.type) ++ (← visitEach (st.exprVisits enter) f.init.toList)
  | .method m =>
    (Site.methodDecl m).before enter do
      return (← visitEach (st.typeVisits enter) m.result.toList) ++
        (← visitEach (st.paramVisits enter) m.params) ++
        (← visitEach (st.bodyVisits enter) m.body.toList)
  | .initializer i => (Site.initializerDecl i).before enter (st.bodyVisits enter i.body)

def classVisits (c : Node.Class) : Except Fault (List Site) :=
  (Site.classDecl c).before enter (visitEach (st.memberVisits enter) c.members)

/-- The tree at a site. -/
def readSite {ν : Type} (spell : Name → ν) : Site → Except Fault (Tree.Site ν)
  | .unit u => return .unit (← u.traverse name type expr body)
  | .importDecl i => return .importDecl (← i.traverse name)
  | .classDecl c => return .classDecl (← c.traverse name type expr body)
  | .fieldDecl f => return .fieldDecl (← f.traverse name type expr)
  | .methodDecl m => return .methodDecl (← m.traverse name type body)
  | .initializerDecl i => return .initializerDecl (← i.traverse body)
  | .param p => return .param (← p.traverse name type)
  | .block b => return .block b.span (← st.readStmts spell b.stmts)
  | .stmt id _ => return .stmt (← st.readStmt spell id)
  | .expr id _ => return .expr (← expr id)
  | .type id _ => return .type (← type id)
where
  name (n : Name) := .ok (spell n)
  type := st.readType spell
  expr := st.readExpr spell
  body := st.readBody spell

end Store

namespace Program

open Node (Site visitEach)

/-- The sites of a program, as far as the walk enters. -/
def visits (p : Program) (enter : Site → Bool) : Except Fault (List Site) :=
  (Site.unit p.unit).before enter do
    return (← visitEach (fun i => (Site.importDecl i).before enter (return [])) p.unit.imports) ++
      (← visitEach (p.store.classVisits enter) p.unit.classes)

/-- Every site of a program. -/
def sites (p : Program) : Except Fault (List Site) := p.visits fun _ => true

/-- The identifiers of a program in source order, repetitions included. -/
def identifiers (p : Program) : Except Fault (List Name) := do
  return (← p.sites).filterMap Site.identifier?

end Program

end TupleAssign
