/-!
# Operators

The operators of expressions, their spelling and how tightly the ones with two
operands bind.
-/

namespace Laconic

/-- The operators with one operand. -/
inductive UnaryOp where
  | minus
  | plus
  | not
  | bitNot
  | typeof
  | void
  | delete
deriving DecidableEq, Repr

def UnaryOp.text : UnaryOp → String
  | .minus => "-"
  | .plus => "+"
  | .not => "!"
  | .bitNot => "~"
  | .typeof => "typeof"
  | .void => "void"
  | .delete => "delete"

/-- The operators that count a variable up or down. -/
inductive UpdateOp where
  | increment
  | decrement
deriving DecidableEq, Repr

def UpdateOp.text : UpdateOp → String
  | .increment => "++"
  | .decrement => "--"

/-- The operators that always take the values of both operands. -/
inductive BinaryOp where
  | eq
  | notEq
  | strictEq
  | strictNotEq
  | lt
  | ltEq
  | gt
  | gtEq
  | shl
  | shr
  | ushr
  | add
  | sub
  | mul
  | div
  | rem
  | exp
  | bitOr
  | bitXor
  | bitAnd
  | in
  | instanceof
deriving DecidableEq, Repr

namespace BinaryOp

def text : BinaryOp → String
  | .eq => "=="
  | .notEq => "!="
  | .strictEq => "==="
  | .strictNotEq => "!=="
  | .lt => "<"
  | .ltEq => "<="
  | .gt => ">"
  | .gtEq => ">="
  | .shl => "<<"
  | .shr => ">>"
  | .ushr => ">>>"
  | .add => "+"
  | .sub => "-"
  | .mul => "*"
  | .div => "/"
  | .rem => "%"
  | .exp => "**"
  | .bitOr => "|"
  | .bitXor => "^"
  | .bitAnd => "&"
  | .in => "in"
  | .instanceof => "instanceof"

/-- How tightly a binary operator binds; a larger number binds tighter. -/
def precedence : BinaryOp → Nat
  | .bitOr => 4
  | .bitXor => 5
  | .bitAnd => 6
  | .eq | .notEq | .strictEq | .strictNotEq => 7
  | .lt | .ltEq | .gt | .gtEq | .in | .instanceof => 8
  | .shl | .shr | .ushr => 9
  | .add | .sub => 10
  | .mul | .div | .rem => 11
  | .exp => 12

/-- The operators that test for equality. -/
def isEquality : BinaryOp → Bool
  | .eq | .notEq | .strictEq | .strictNotEq => true
  | _ => false

/-- The operators whose value is a truth value. -/
def isBoolean : BinaryOp → Bool
  | .eq | .notEq | .strictEq | .strictNotEq | .lt | .ltEq | .gt | .gtEq | .in | .instanceof =>
    true
  | _ => false

/-- The operator that gives the opposite truth value on every operand. -/
def negated? : BinaryOp → Option BinaryOp
  | .eq => some .notEq
  | .notEq => some .eq
  | .strictEq => some .strictNotEq
  | .strictNotEq => some .strictEq
  | _ => none

end BinaryOp

/-- The operators that may leave their right operand alone. -/
inductive LogicalOp where
  | and
  | or
  | nullish
deriving DecidableEq, Repr

namespace LogicalOp

def text : LogicalOp → String
  | .and => "&&"
  | .or => "||"
  | .nullish => "??"

/-- How tightly a logical operator binds. -/
def precedence : LogicalOp → Nat
  | .nullish => 1
  | .or => 2
  | .and => 3

end LogicalOp

inductive AssignOp where
  | plain
  /-- Assigns the result of an operator. -/
  | compound (op : BinaryOp)
  /-- Assigns unless the operator leaves its right operand alone. -/
  | logical (op : LogicalOp)
deriving DecidableEq, Repr

namespace AssignOp

def text : AssignOp → String
  | .plain => "="
  | .compound op => op.text ++ "="
  | .logical op => op.text ++ "="

end AssignOp

/-- The values that the language itself hands out by name. -/
inductive MetaProperty where
  | newTarget
  | importMeta
deriving DecidableEq, Repr

/-- The spelling of such a value. -/
def MetaProperty.text : MetaProperty → String
  | .newTarget => "new.target"
  | .importMeta => "import.meta"

end Laconic
