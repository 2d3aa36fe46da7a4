import TupleAssign.Store
/-!
# Descriptions of stored nodes

A node as one line of text: its kind with the ids it holds, and for expressions and statements the
span behind an at sign.
-/

namespace TupleAssign.Node

/-- A label with named parts between braces. -/
def record (label : String) (parts : List (String × String)) : String :=
  label ++ " \x7b " ++ ", ".intercalate (parts.map fun (n, v) => n ++ ": " ++ v) ++ " \x7d"

/-- A label with one part between parentheses. -/
def single (label part : String) : String := label ++ "(" ++ part ++ ")"

def boolText (b : Bool) : String := if b then "true" else "false"

def Ty.describe : Ty → String
  | .primitive p => single "Primitive" p.label
  | .named name args => record "Named" [("name", name.text), ("args", args.text)]
  | .array elem => single "Array" elem.text

def ExprKind.describe : ExprKind → String
  | .int v => single "Int" (toString v)
  | .bool v => single "Bool" (boolText v)
  | .str v => single "Str" v.text
  | .null => "Null"
  | .self => "This"
  | .ident name => single "Ident" name.text
  | .field r name => record "Field" [("receiver", r.text), ("field", name.text)]
  | .index r i => record "Index" [("receiver", r.text), ("index", i.text)]
  | .call r method args =>
    record "Call" [("receiver", NodeId.slotText r), ("method", method.text), ("args", args.text)]
  | .create type args => record "New" [("ty", type.text), ("args", args.text)]
  | .unary op e => record "Unary" [("op", op.label), ("operand", e.text)]
  | .binary op l r => record "Binary" [("op", op.label), ("left", l.text), ("right", r.text)]
  | .conditional c t e =>
    record "Conditional" [("cond", c.text), ("then_expr", t.text), ("else_expr", e.text)]
  | .assign target value => record "Assign" [("target", target.text), ("value", value.text)]

def Expr.describe (e : Expr) : String := e.kind.describe ++ " @ " ++ e.span.text

def Block.describe (b : Block) : String :=
  record "Block" [("stmts", b.stmts.text), ("span", b.span.text)]

def StmtKind.describe : StmtKind → String
  | .expr e => single "Expr" e.text
  | .localVar type name init isFinal =>
    record "Local"
      [("ty", type.text), ("name", name.text), ("init", NodeId.slotText init),
        ("is_final", boolText isFinal)]
  | .block b => single "Block" b.describe
  | .ifElse c t e =>
    record "If" [("cond", c.text), ("then_branch", t.text), ("else_branch", NodeId.slotText e)]
  | .whileLoop c body => record "While" [("cond", c.text), ("body", body.text)]
  | .switch sel arms => record "Switch" [("selector", sel.text), ("cases", arms.text)]
  | .returnWith value => single "Return" (NodeId.slotText value)
  | .breakOut => "Break"
  | .continueOn => "Continue"
  | .empty => "Empty"

def Stmt.describe (s : Stmt) : String := s.kind.describe ++ " @ " ++ s.span.text

def Arm.describe (a : Arm) : String :=
  record "SwitchCase"
    [("label", NodeId.slotText a.label), ("stmts", a.stmts.text), ("span", a.span.text)]

end TupleAssign.Node
