/-!
# Primitive types and operators

The closed vocabularies of the source language, each with its source spelling (`symbol`,
`keyword`) and the label under which a stored node shows it (`label`).
-/

namespace TupleAssign

inductive Primitive where
  | boolean
  | byte
  | short
  | int
  | long
  | char
  | float
  | double
deriving DecidableEq, Inhabited

namespace Primitive

def all : List Primitive := [.boolean, .byte, .short, .int, .long, .char, .float, .double]

def keyword : Primitive → String
  | .boolean => "boolean"
  | .byte => "byte"
  | .short => "short"
  | .int => "int"
  | .long => "long"
  | .char => "char"
  | .float => "float"
  | .double => "double"

def label : Primitive → String
  | .boolean => "Boolean"
  | .byte => "Byte"
  | .short => "Short"
  | .int => "Int"
  | .long => "Long"
  | .char => "Char"
  | .float => "Float"
  | .double => "Double"

def ofKeyword? (s : String) : Option Primitive := all.find? (·.keyword == s)

end Primitive

inductive UnaryOp where
  | neg
  | not
deriving DecidableEq, Inhabited

namespace UnaryOp

def all : List UnaryOp := [.neg, .not]

def symbol : UnaryOp → String
  | .neg => "-"
  | .not => "!"

def label : UnaryOp → String
  | .neg => "Neg"
  | .not => "Not"

def ofSymbol? (s : String) : Option UnaryOp := all.find? (·.symbol == s)

end UnaryOp

inductive BinaryOp where
  | add
  | sub
  | mul
  | div
  | rem
  | eq
  | notEq
  | lt
  | ltEq
  | gt
  | gtEq
  | and
  | or
deriving DecidableEq, Inhabited

namespace BinaryOp

def all : List BinaryOp :=
  [.add, .sub, .mul, .div, .rem, .eq, .notEq, .lt, .ltEq, .gt, .gtEq, .and, .or]

def symbol : BinaryOp → String
  | .add => "+"
  | .sub => "-"
  | .mul => "*"
  | .div => "/"
  | .rem => "%"
  | .eq => "=="
  | .notEq => "!="
  | .lt => "<"
  | .ltEq => "<="
  | .gt => ">"
  | .gtEq => ">="
  | .and => "&&"
  | .or => "||"

def label : BinaryOp → String
  | .add => "Add"
  | .sub => "Sub"
  | .mul => "Mul"
  | .div => "Div"
  | .rem => "Rem"
  | .eq => "Eq"
  | .notEq => "NotEq"
  | .lt => "Lt"
  | .ltEq => "LtEq"
  | .gt => "Gt"
  | .gtEq => "GtEq"
  | .and => "And"
  | .or => "Or"

def ofSymbol? (s : String) : Option BinaryOp := all.find? (·.symbol == s)

end BinaryOp

end TupleAssign
