import TupleAssign.Tree
/-!
# Source text

Writes trees as canonical source text: four spaces of indentation, one statement a line, and
parentheses round every operand that is itself a binary, conditional or assignment expression.
-/

namespace TupleAssign.Tree

/-! ## Types -/

mutual

def Ty.render : Ty → String
  | .primitive p => p.keyword
  | .named name args =>
    if args.isEmpty then name else name ++ "<" ++ ", ".intercalate (Ty.renderAll args) ++ ">"
  | .array elem => elem.render ++ "[]"

def Ty.renderAll : List Ty → List String
  | [] => []
  | t :: ts => t.render :: Ty.renderAll ts

end

/-! ## Expressions -/

/-- A quote and a backslash take a backslash, a line feed is written as one; all else stands for
itself. -/
def escapeChar : Char → List Char
  | '"' => ['\\', '"']
  | '\\' => ['\\', '\\']
  | '\n' => ['\\', 'n']
  | c => [c]

def quote (s : String) : String := "\"" ++ String.ofList (s.toList.flatMap escapeChar) ++ "\""

/-- Whether an operand needs parentheses. -/
def Expr.isCompound : Expr → Bool
  | .binary _ _ _ _ | .conditional _ _ _ _ | .assign _ _ _ => true
  | _ => false

/-- The text of `e` where `e` stands as an operand. -/
def Expr.asOperand (e : Expr) (text : String) : String :=
  if e.isCompound then "(" ++ text ++ ")" else text

def argumentList (args : List String) : String := "(" ++ ", ".intercalate args ++ ")"

mutual

def Expr.render : Expr → String
  | .int _ v => toString v
  | .bool _ v => if v then "true" else "false"
  | .str _ s => quote s
  | .null _ => "null"
  | .self _ => "this"
  | .ident _ name => name
  | .field _ r name => r.asOperand r.render ++ "." ++ name
  | .index _ r i => r.asOperand r.render ++ "[" ++ i.render ++ "]"
  | .call _ none method args => method ++ argumentList (Expr.renderAll args)
  | .call _ (some r) method args =>
    r.asOperand r.render ++ "." ++ method ++ argumentList (Expr.renderAll args)
  | .create _ type args => "new " ++ type.render ++ argumentList (Expr.renderAll args)
  | .unary _ op e => op.symbol ++ e.asOperand e.render
  | .binary _ op l r =>
    l.asOperand l.render ++ " " ++ op.symbol ++ " " ++ r.asOperand r.render
  | .conditional _ c t e =>
    c.asOperand c.render ++ " ? " ++ t.asOperand t.render ++ " : " ++ e.asOperand e.render
  | .assign _ target value => target.render ++ " = " ++ value.render

def Expr.renderAll : List Expr → List String
  | [] => []
  | e :: es => e.render :: Expr.renderAll es

end

/-! ## Lines -/

/-- A line of text at some depth, or a blank line, which is never indented. -/
inductive Line where
  | blank
  | text (depth : Nat) (s : String)
deriving DecidableEq, Inhabited

namespace Line

def indent : Line → Line
  | .blank => .blank
  | .text depth s => .text (depth + 1) s

def render : Line → String
  | .blank => "\n"
  | .text depth s => String.join (List.replicate depth "    ") ++ s ++ "\n"

end Line

/-- A line at the outer level. -/
def line (s : String) : Line := .text 0 s

def indent (ls : List Line) : List Line := ls.map Line.indent

def renderLines (ls : List Line) : String := String.join (ls.map Line.render)

/-! ## Statements -/

/-- The lines of a statement standing on its own, given its inner lines: a block adds its
braces. -/
def Stmt.standing (s : Stmt) (inner : List Line) : List Line :=
  if s.isBlock then line "\x7b" :: indent inner ++ [line "\x7d"] else inner

/-- The lines of a statement under a header (`if`, `else`, `while`). A block's opening brace goes
on the header's line and its closing brace is left to what follows. -/
def Stmt.under (s : Stmt) (header : String) (inner : List Line) : List Line :=
  line (if s.isBlock then header ++ " \x7b" else header) :: indent inner

/-- The brace that `Stmt.under` leaves open. -/
def Stmt.closing (s : Stmt) : List Line := if s.isBlock then [line "\x7d"] else []

def withInit (text : String) : Option Expr → String
  | none => text ++ ";"
  | some e => text ++ " = " ++ e.render ++ ";"

def labelText : Option Expr → String
  | none => "default:"
  | some e => "case " ++ e.render ++ ":"

mutual

/-- The lines of a statement, those of a block without its braces. -/
def Stmt.inner : Stmt → List Line
  | .expr _ e => [line (e.render ++ ";")]
  | .localVar _ type name init isFinal =>
    [line (withInit ((if isFinal then "final " else "") ++ type.render ++ " " ++ name) init)]
  | .block _ stmts => Stmt.linesAll stmts
  | .ifElse _ cond t none =>
    t.under ("if (" ++ cond.render ++ ")") t.inner ++ t.closing
  | .ifElse _ cond t (some e) =>
    t.under ("if (" ++ cond.render ++ ")") t.inner
      ++ e.under (if t.isBlock then "\x7d else" else "else") e.inner ++ e.closing
  | .whileLoop _ cond body =>
    body.under ("while (" ++ cond.render ++ ")") body.inner ++ body.closing
  | .switch _ selector arms =>
    line ("switch (" ++ selector.render ++ ") \x7b") :: indent (Stmt.armLines arms) ++ [line "\x7d"]
  | .returnWith _ none => [line "return;"]
  | .returnWith _ (some e) => [line ("return " ++ e.render ++ ";")]
  | .breakOut _ => [line "break;"]
  | .continueOn _ => [line "continue;"]
  | .empty _ => [line ";"]

def Stmt.linesAll : List Stmt → List Line
  | [] => []
  | s :: ss => s.standing s.inner ++ Stmt.linesAll ss

def Stmt.armLines : List Arm → List Line
  | [] => []
  | .mk label stmts :: arms =>
    line (labelText label) :: indent (Stmt.linesAll stmts) ++ Stmt.armLines arms

end

def Stmt.lines (s : Stmt) : List Line := s.standing s.inner

def Stmt.render (s : Stmt) : String := renderLines s.lines

/-- A statement list, one statement a line, without braces. -/
def renderStmts (ss : List Stmt) : String := renderLines (Stmt.linesAll ss)

/-! ## Items -/

def staticText (isStatic : Bool) : String := if isStatic then "static " else ""

/-- Groups of lines, with a blank line between two groups. -/
def separated : List (List Line) → List Line
  | [] => []
  | [g] => g
  | g :: gs => g ++ .blank :: separated gs

def importText (i : Import) : String :=
  "import " ++ staticText i.isStatic ++ i.path ++ (if i.onDemand then ".*" else "") ++ ";"

def fieldText (f : Field) : String :=
  withInit (staticText f.isStatic ++ f.type.render ++ " " ++ f.name) f.init

def paramText (p : Param) : String := p.type.render ++ " " ++ p.name

def resultText : Option Ty → String
  | none => "void"
  | some t => t.render

def methodHeader (m : Method) : String :=
  staticText m.isStatic ++ resultText m.result ++ " " ++ m.name
    ++ argumentList (m.params.map paramText)

def bodyLines (header : String) (b : Body) : List Line :=
  line header :: indent (Stmt.linesAll b.stmts) ++ [line "\x7d"]

def memberLines : Member → List Line
  | .field f => [line (fieldText f)]
  | .method m =>
    match m.body with
    | none => [line (methodHeader m ++ ";")]
    | some b => bodyLines (methodHeader m ++ " \x7b") b
  | .initializer i => bodyLines (staticText i.isStatic ++ "\x7b") i.body

def classLines (c : Class) : List Line :=
  line ("class " ++ c.name ++ " \x7b") :: indent (separated (c.members.map memberLines)) ++ [line "\x7d"]

def packageLines (package : String) : List Line :=
  if package = "" then [] else [line ("package " ++ package ++ ";"), .blank]

def importLines : List Import → List Line
  | [] => []
  | is => is.map (fun i => line (importText i)) ++ [.blank]

def unitLines (u : CompilationUnit) : List Line :=
  packageLines u.package ++ importLines u.imports ++ separated (u.classes.map classLines)

def renderUnit (u : CompilationUnit) : String := renderLines (unitLines u)

end TupleAssign.Tree
