import Laconic.Number.Text
import Laconic.Number.Read
import Laconic.Text.Units
import Laconic.Tree.Access

/-!
# Primitive values

The values of a JavaScript program that can be known before it runs, their
conversions into each other, and the operators on them.
-/

namespace Laconic

inductive Value where
  | undefined
  | null
  | bool (b : Bool)
  | num (x : Float)
  | str (s : String)

/-! ## Conversions -/

/-- The double modulo 2³², after rounding toward zero.  What is not finite
counts as zero. -/
def Number.toUInt32 (x : Float) : UInt32 :=
  if x.isNaN || x.isInf then 0 else UInt32.ofNat (truncate x % (twoPow 32 : Nat)).toNat

/-- The marks that say in which radix the digits after them are. -/
def radixMarks : List (List Char × Nat) :=
  [(['0', 'x'], 16), (['0', 'X'], 16), (['0', 'o'], 8), (['0', 'O'], 8), (['0', 'b'], 2),
    (['0', 'B'], 2)]

/-- The number that a text stands for.  Blanks at both ends do not count, and an
empty text is zero. -/
def numberOfText (s : String) : Float :=
  let cs := (trimChars (fun c => isBlank c || c == '\uFEFF') s).toList
  if cs.isEmpty then 0
  else
    match radixMarks.find? fun m => m.1.isPrefixOf cs with
    | some (_, radix) =>
      if cs.length == 2 then Number.nan else (Number.readRadix? radix (cs.drop 2)).getD Number.nan
    | none =>
      if cs == "Infinity".toList || cs == "+Infinity".toList then Number.infinity
      else if cs == "-Infinity".toList then -Number.infinity
      else (Number.readDecimal? cs).getD Number.nan

namespace Value

def toBool : Value → Bool
  | .undefined | .null => false
  | .bool b => b
  | .num x => x != 0 && !x.isNaN
  | .str s => !s.isEmpty

def toNumber : Value → Float
  | .undefined => Number.nan
  | .null => 0
  | .bool b => if b then 1 else 0
  | .num x => x
  | .str s => numberOfText s

def toText : Value → String
  | .undefined => "undefined"
  | .null => "null"
  | .bool b => if b then "true" else "false"
  | .num x => Number.text x
  | .str s => s

def typeName : Value → String
  | .undefined => "undefined"
  | .null => "object"
  | .bool _ => "boolean"
  | .num _ => "number"
  | .str _ => "string"

def toUInt32 (v : Value) : UInt32 := Number.toUInt32 v.toNumber

def toInt32 (v : Value) : Int32 := v.toUInt32.toInt32

def isNullish : Value → Bool
  | .undefined | .null => true
  | _ => false

def isText : Value → Bool
  | .str _ => true
  | _ => false

def ofInt32 (n : Int32) : Value := .num (Number.ofInt n.toInt)

def ofUInt32 (n : UInt32) : Value := .num (Number.ofNat n.toNat)

end Value

/-! ## Expressions for values -/

/-- An expression for a number, also for one that has no literal. -/
def Expr.ofNumber (x : Float) (loc : Span) : Expr :=
  if x.isNaN then mkBinary .div (.num loc 0) (.num loc 0)
  else if x.isInf then
    let infinite := mkBinary .div (.num loc 1) (.num loc 0)
    if x < 0 then .unary loc .minus infinite else infinite
  else if Number.signBit x then .unary loc .minus (.num loc (-x))
  else .num loc x

/-- An expression for a value.  With `short` the truth values are `!0` and
`!1`. -/
def Value.toExpr (v : Value) (loc : Span) (short : Bool) : Expr :=
  match v with
  | .undefined => .undefined loc
  | .null => .null loc
  | .bool b => if short then .mkNot (.num loc (if b then 0 else 1)) else .bool loc b
  | .num x => .ofNumber x loc
  | .str s => .ofString s loc

/-! ## Operators -/

namespace Value

def strictEquals : Value → Value → Bool
  | .num a, .num b => a == b
  | .str a, .str b => a == b
  | .bool a, .bool b => a == b
  | .undefined, .undefined | .null, .null => true
  | _, _ => false

def sameType (a b : Value) : Bool :=
  match a, b with
  | .num _, .num _ | .str _, .str _ | .bool _, .bool _ => true
  | _, _ => false

/-- Equality after conversion: values of different types are compared as
numbers, but `undefined` and `null` equal only each other. -/
def looseEquals (a b : Value) : Bool :=
  if a.isNullish || b.isNullish then a.isNullish && b.isNullish
  else if sameType a b then strictEquals a b
  else a.toNumber == b.toNumber

/-- Whether one value is less than another; `none` if they cannot be
compared. -/
def less? (a b : Value) : Option Bool :=
  match a, b with
  | .str a, .str b => some (unitsLess a b)
  | a, b =>
    let x := a.toNumber
    let y := b.toNumber
    if x.isNaN || y.isNaN then none else some (x < y)

end Value

def Number.power (x y : Float) : Float :=
  if y.isNaN || (x.abs == 1 && y.isInf) then nan else Float.pow x y

/-- The length in code units of the longest text that is worked out. -/
def maxTextLength : Nat := 1024

/-- A text that is not too long to be worked out. -/
def Value.ofText? (s : String) : Option Value :=
  if maxTextLength < unitLength s then none else some (.str s)

/-- The value of an operation on two values; `none` for an operation on
objects. -/
def BinaryOp.value? (op : BinaryOp) (a b : Value) : Option Value :=
  let number (f : Float → Float → Float) : Option Value := some (.num (f a.toNumber b.toNumber))
  let word (f : Int32 → Int32 → Int32) : Option Value := some (.ofInt32 (f a.toInt32 b.toInt32))
  let distance := b.toUInt32 &&& 31
  let truth (t : Bool) : Option Value := some (.bool t)
  match op with
  | .add => if a.isText || b.isText then Value.ofText? (a.toText ++ b.toText) else number (· + ·)
  | .sub => number (· - ·)
  | .mul => number (· * ·)
  | .div => number (· / ·)
  | .rem => number Number.remainder
  | .exp => number Number.power
  | .bitAnd => word (· &&& ·)
  | .bitOr => word (· ||| ·)
  | .bitXor => word (· ^^^ ·)
  | .shl => some (.ofInt32 (a.toInt32 <<< distance.toInt32))
  | .shr => some (.ofInt32 (a.toInt32 >>> distance.toInt32))
  | .ushr => some (.ofUInt32 (a.toUInt32 >>> distance))
  | .strictEq => truth (a.strictEquals b)
  | .strictNotEq => truth !(a.strictEquals b)
  | .eq => truth (a.looseEquals b)
  | .notEq => truth !(a.looseEquals b)
  | .lt => truth ((a.less? b).getD false)
  | .gt => truth ((b.less? a).getD false)
  | .ltEq => truth ((b.less? a).any (!·))
  | .gtEq => truth ((a.less? b).any (!·))
  | .in | .instanceof => none

/-- The value of an operation on one value; `none` for `delete`, which is about
properties. -/
def UnaryOp.value? (op : UnaryOp) (v : Value) : Option Value :=
  match op with
  | .minus => some (.num (-v.toNumber))
  | .plus => some (.num v.toNumber)
  | .not => some (.bool !v.toBool)
  | .bitNot => some (.ofInt32 (~~~v.toInt32))
  | .typeof => some (.str v.typeName)
  | .void => some .undefined
  | .delete => none

end Laconic
