import TupleAssign.Tree
/-!
# Visiting a tree

`visits` lists the sites of a tree in source order, parents before children. A caller decides site
by site whether the walk enters it: the children of a site that is not entered are left out.
Identifier collection and the trace of a walk are read off this list.
-/

namespace TupleAssign.Tree

/-- A place that a walk comes to. A block statement is followed by the site of its statement list;
the body of a method or initializer has the latter only. -/
inductive Site (ν : Type := String) where
  | unit (u : CompilationUnit ν)
  | importDecl (i : Import ν)
  | classDecl (c : Class ν)
  | fieldDecl (f : Field ν)
  | methodDecl (m : Method ν)
  | initializerDecl (i : Initializer ν)
  | param (p : Param ν)
  | block (span : Span) (stmts : List (Stmt ν))
  | stmt (s : Stmt ν)
  | expr (e : Expr ν)
  | type (t : Ty ν)

section

variable {ν : Type}

/-- A site, and then its children if it is entered. -/
def Site.before (s : Site ν) (enter : Site ν → Bool) (children : List (Site ν)) : List (Site ν) :=
  s :: if enter s then children else []

/-! ## The walk -/

section Walk

variable (enter : Site ν → Bool)

mutual

def Ty.visits : Ty ν → List (Site ν)
  | .primitive p => (Site.type (.primitive p)).before enter []
  | .named name args => (Site.type (.named name args)).before enter (Ty.visitsAll args)
  | .array elem => (Site.type (.array elem)).before enter (Ty.visits elem)

def Ty.visitsAll : List (Ty ν) → List (Site ν)
  | [] => []
  | t :: ts => Ty.visits t ++ Ty.visitsAll ts

end

mutual

def Expr.visits : Expr ν → List (Site ν)
  | .int s v => (Site.expr (.int s v)).before enter []
  | .bool s v => (Site.expr (.bool s v)).before enter []
  | .str s v => (Site.expr (.str s v)).before enter []
  | .null s => (Site.expr (.null s)).before enter []
  | .self s => (Site.expr (.self s)).before enter []
  | .ident s n => (Site.expr (.ident s n)).before enter []
  | .field s r n => (Site.expr (.field s r n)).before enter (Expr.visits r)
  | .index s r i => (Site.expr (.index s r i)).before enter (Expr.visits r ++ Expr.visits i)
  | .call s none n args => (Site.expr (.call s none n args)).before enter (Expr.visitsAll args)
  | .call s (some r) n args =>
    (Site.expr (.call s (some r) n args)).before enter (Expr.visits r ++ Expr.visitsAll args)
  | .create s t args =>
    (Site.expr (.create s t args)).before enter (t.visits enter ++ Expr.visitsAll args)
  | .unary s op e => (Site.expr (.unary s op e)).before enter (Expr.visits e)
  | .binary s op l r =>
    (Site.expr (.binary s op l r)).before enter (Expr.visits l ++ Expr.visits r)
  | .conditional s c t e =>
    (Site.expr (.conditional s c t e)).before enter
      (Expr.visits c ++ Expr.visits t ++ Expr.visits e)
  | .assign s t v => (Site.expr (.assign s t v)).before enter (Expr.visits t ++ Expr.visits v)

def Expr.visitsAll : List (Expr ν) → List (Site ν)
  | [] => []
  | e :: es => Expr.visits e ++ Expr.visitsAll es

end

def optionVisits {α : Type} (f : α → List (Site ν)) : Option α → List (Site ν)
  | none => []
  | some a => f a

mutual

def Stmt.visits : Stmt ν → List (Site ν)
  | .expr s e => (Site.stmt (.expr s e)).before enter (e.visits enter)
  | .localVar s t n init f =>
    (Site.stmt (.localVar s t n init f)).before enter
      (t.visits enter ++ optionVisits (Expr.visits enter) init)
  | .block s stmts =>
    (Site.stmt (.block s stmts)).before enter
      ((Site.block s stmts).before enter (Stmt.visitsAll stmts))
  | .ifElse s c t none =>
    (Site.stmt (.ifElse s c t none)).before enter (c.visits enter ++ Stmt.visits t)
  | .ifElse s c t (some e) =>
    (Site.stmt (.ifElse s c t (some e))).before enter
      (c.visits enter ++ Stmt.visits t ++ Stmt.visits e)
  | .whileLoop s c b => (Site.stmt (.whileLoop s c b)).before enter (c.visits enter ++ Stmt.visits b)
  | .switch s sel arms =>
    (Site.stmt (.switch s sel arms)).before enter (sel.visits enter ++ Arm.visitsAll arms)
  | .returnWith s v =>
    (Site.stmt (.returnWith s v)).before enter (optionVisits (Expr.visits enter) v)
  | .breakOut s => (Site.stmt (.breakOut s)).before enter []
  | .continueOn s => (Site.stmt (.continueOn s)).before enter []
  | .empty s => (Site.stmt (.empty s)).before enter []

def Stmt.visitsAll : List (Stmt ν) → List (Site ν)
  | [] => []
  | s :: ss => Stmt.visits s ++ Stmt.visitsAll ss

/-- An arm is no site of its own. -/
def Arm.visitsAll : List (Arm ν) → List (Site ν)
  | [] => []
  | .mk label stmts :: arms =>
    optionVisits (Expr.visits enter) label ++ Stmt.visitsAll stmts ++ Arm.visitsAll arms

end

def Body.visits (b : Body ν) : List (Site ν) :=
  (Site.block b.span b.stmts).before enter (Stmt.visitsAll enter b.stmts)

def paramVisits (p : Param ν) : List (Site ν) := (Site.param p).before enter (p.type.visits enter)

def memberVisits : Member ν → List (Site ν)
  | .field f =>
    (Site.fieldDecl f).before enter (f.type.visits enter ++ optionVisits (Expr.visits enter) f.init)
  | .method m =>
    (Site.methodDecl m).before enter
      (optionVisits (Ty.visits enter) m.result ++ m.params.flatMap (paramVisits enter)
        ++ optionVisits (Body.visits enter) m.body)
  | .initializer i => (Site.initializerDecl i).before enter (i.body.visits enter)

def classVisits (c : Class ν) : List (Site ν) :=
  (Site.classDecl c).before enter (c.members.flatMap (memberVisits enter))

def unitVisits (u : CompilationUnit ν) : List (Site ν) :=
  (Site.unit u).before enter
    (u.imports.flatMap (fun i => (Site.importDecl i).before enter [])
      ++ u.classes.flatMap (classVisits enter))

end Walk

/-- Every site of a unit. -/
def sites (u : CompilationUnit ν) : List (Site ν) := unitVisits (fun _ => true) u

/-! ## Identifiers -/

/-- The identifier that a site spells, if any. -/
def Site.identifier? : Site ν → Option ν
  | .classDecl c => some c.name
  | .fieldDecl f => some f.name
  | .methodDecl m => some m.name
  | .param p => some p.name
  | .stmt (.localVar _ _ n _ _) => some n
  | .expr (.ident _ n) => some n
  | .expr (.field _ _ n) => some n
  | .expr (.call _ _ n _) => some n
  | .type (.named n _) => some n
  | _ => none

/-- The identifiers of a unit in source order, repetitions included. -/
def identifiers (u : CompilationUnit ν) : List ν := (sites u).filterMap Site.identifier?

end

/-- The distinct strings of a list, in code point order. -/
def sortedDistinct (ss : List String) : List String :=
  ss.eraseDups.mergeSort (fun a b => decide (a ≤ b))

/-! ## The trace of a walk -/

def Expr.kind : Expr → String
  | .int _ _ => "int"
  | .bool _ _ => "bool"
  | .str _ _ => "str"
  | .null _ => "null"
  | .self _ => "this"
  | .ident _ _ => "ident"
  | .field _ _ _ => "field"
  | .index _ _ _ => "index"
  | .call _ _ _ _ => "call"
  | .create _ _ _ => "new"
  | .unary _ _ _ => "unary"
  | .binary _ _ _ _ => "binary"
  | .conditional _ _ _ _ => "cond"
  | .assign _ _ _ => "assign"

def Stmt.kind : Stmt → String
  | .expr _ _ => "expr"
  | .localVar _ _ _ _ _ => "local"
  | .block _ _ => "block"
  | .ifElse _ _ _ _ => "if"
  | .whileLoop _ _ _ => "while"
  | .switch _ _ _ => "switch"
  | .returnWith _ _ => "return"
  | .breakOut _ => "break"
  | .continueOn _ => "continue"
  | .empty _ => "empty"

def Site.kind : Site → String
  | .unit _ => "unit"
  | .importDecl _ => "import"
  | .classDecl _ => "class"
  | .fieldDecl _ => "field"
  | .methodDecl _ => "method"
  | .initializerDecl _ => "init"
  | .param _ => "param"
  | .block _ _ => "block"
  | .stmt s => "stmt:" ++ s.kind
  | .expr e => "expr:" ++ e.kind
  | .type (.primitive _) => "type:prim"
  | .type (.named _ _) => "type:named"
  | .type (.array _) => "type:array"

def Site.detail : Site → String
  | .importDecl i => i.path
  | .classDecl c => c.name
  | .fieldDecl f => f.name
  | .methodDecl m => m.name
  | .param p => p.name
  | .block s _ => s.text
  | .stmt s => s.span.text
  | .expr e => e.span.text
  | .type (.primitive p) => p.keyword
  | .type (.named n _) => n
  | _ => ""

def Site.text (s : Site) : String :=
  if s.detail = "" then s.kind else s.kind ++ " " ++ s.detail

/-- The entries that a site adds to a trace. A class that is entered lists the spans of its members
first. -/
def Site.entries (enter : Site → Bool) : Site → List String
  | .classDecl c =>
    (Site.classDecl c).text ::
      if enter (.classDecl c) then c.members.map (fun m => "member " ++ m.span.text) else []
  | s => [s.text]

/-- The trace of a walk that does not enter the sites of the given kinds. -/
def trace (pruned : List String) (u : CompilationUnit) : List String :=
  let enter := fun s : Site => !pruned.contains s.kind
  (unitVisits enter u).flatMap (Site.entries enter)

end TupleAssign.Tree
