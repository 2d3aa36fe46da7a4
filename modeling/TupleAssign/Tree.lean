import TupleAssign.Item
import TupleAssign.Operator
/-!
# Syntax trees

Types, expressions, statements and whole units as plain trees. Names are of any type `ν`: strings
where nothing else is said, names of a table in a tree that a store holds. Every expression and
statement carries its span. A switch arm has none of its own: it takes the span of its switch, as a
block's statement list takes the block's.
-/

namespace TupleAssign.Tree

/-- A type as written; the name of a class type is its spelling, possibly dotted. -/
inductive Ty (ν : Type := String) where
  | primitive (p : Primitive)
  | named (name : ν) (args : List (Ty ν))
  | array (elem : Ty ν)
deriving Inhabited

inductive Expr (ν : Type := String) where
  | int (span : Span) (value : Int)
  | bool (span : Span) (value : Bool)
  | str (span : Span) (value : ν)
  | null (span : Span)
  | self (span : Span)
  | ident (span : Span) (name : ν)
  | field (span : Span) (receiver : Expr ν) (name : ν)
  | index (span : Span) (receiver index : Expr ν)
  | call (span : Span) (receiver : Option (Expr ν)) (method : ν) (args : List (Expr ν))
  | create (span : Span) (type : Ty ν) (args : List (Expr ν))
  | unary (span : Span) (op : UnaryOp) (operand : Expr ν)
  | binary (span : Span) (op : BinaryOp) (left right : Expr ν)
  | conditional (span : Span) (cond thenExpr elseExpr : Expr ν)
  | assign (span : Span) (target value : Expr ν)
deriving Inhabited

mutual

inductive Stmt (ν : Type := String) where
  | expr (span : Span) (e : Expr ν)
  | localVar (span : Span) (type : Ty ν) (name : ν) (init : Option (Expr ν)) (isFinal : Bool)
  | block (span : Span) (stmts : List (Stmt ν))
  | ifElse (span : Span) (cond : Expr ν) (thenBranch : Stmt ν) (elseBranch : Option (Stmt ν))
  | whileLoop (span : Span) (cond : Expr ν) (body : Stmt ν)
  | switch (span : Span) (selector : Expr ν) (arms : List (Arm ν))
  | returnWith (span : Span) (value : Option (Expr ν))
  | breakOut (span : Span)
  | continueOn (span : Span)
  | empty (span : Span)

/-- One arm of a switch; the arm without a label is the default one. -/
inductive Arm (ν : Type := String) where
  | mk (label : Option (Expr ν)) (stmts : List (Stmt ν))

end

section

variable {ν : Type}

instance : Inhabited (Stmt ν) := ⟨.empty {}⟩

instance : Inhabited (Arm ν) := ⟨.mk none []⟩

def Arm.label : Arm ν → Option (Expr ν)
  | .mk label _ => label

def Arm.stmts : Arm ν → List (Stmt ν)
  | .mk _ stmts => stmts

end

/-- The braced statement list of a method or an initializer. -/
structure Body (ν : Type := String) where
  stmts : List (Stmt ν)
  span : Span := {}
deriving Inhabited

abbrev Import (ν : Type := String) := TupleAssign.Import ν
abbrev Param (ν : Type := String) := TupleAssign.Param ν (Ty ν)
abbrev Field (ν : Type := String) := TupleAssign.Field ν (Ty ν) (Expr ν)
abbrev Method (ν : Type := String) := TupleAssign.Method ν (Ty ν) (Body ν)
abbrev Initializer (ν : Type := String) := TupleAssign.Initializer (Body ν)
abbrev Member (ν : Type := String) := TupleAssign.Member ν (Ty ν) (Expr ν) (Body ν)
abbrev Class (ν : Type := String) := TupleAssign.Class ν (Ty ν) (Expr ν) (Body ν)
abbrev CompilationUnit (ν : Type := String) :=
  TupleAssign.CompilationUnit ν (Ty ν) (Expr ν) (Body ν)

section

variable {ν : Type}

def Expr.span : Expr ν → Span
  | .int s _ | .bool s _ | .str s _ | .null s | .self s | .ident s _ | .field s _ _ | .index s _ _
  | .call s _ _ _ | .create s _ _ | .unary s _ _ | .binary s _ _ _ | .conditional s _ _ _
  | .assign s _ _ => s

def Stmt.span : Stmt ν → Span
  | .expr s _ | .localVar s _ _ _ _ | .block s _ | .ifElse s _ _ _ | .whileLoop s _ _
  | .switch s _ _ | .returnWith s _ | .breakOut s | .continueOn s | .empty s => s

def Stmt.isBlock : Stmt ν → Bool
  | .block _ _ => true
  | _ => false

end

end TupleAssign.Tree
