import Laconic.Constant.Builtin
import Laconic.Scope.Basic

/-!
# The values of expressions

An expression has a value before the program runs if all its parts have one:
literals, operators on them, names of fixed symbols, and, where the methods of
texts and numbers and the functions of `Math` are trusted to be the usual ones,
calls of them.
-/

namespace Laconic

/-- What may be assumed about a program. -/
structure Knowledge where
  /-- The symbols of the program. -/
  tree : Option ScopeTree
  /-- Whether methods and `Math` are the usual ones. -/
  builtins : Bool

namespace Evaluate

/-- How deep the parts of an expression may be nested. -/
def maxDepth : Nat := 64

/-- Whether an expression makes a new object each time. -/
def isFreshObject : Expr → Bool
  | .function _ | .arrow _ | .regexp .. => true
  | .array _ es => es.isEmpty
  | .object _ ps => ps.isEmpty
  | _ => false

/-- What `typeof` says of an expression that is no primitive value. -/
def objectTypeName? : Expr → Option String
  | .function _ | .arrow _ => some "function"
  | .bigint .. => some "bigint"
  | e => if isFreshObject e then some "object" else none

def literalAt (depth : Nat) (e : Expr) : Option Value :=
  if maxDepth < depth then none
  else
    match e with
    | .null _ => some .null
    | .bool _ b => some (.bool b)
    | .num _ x => some (.num x)
    | .str ⟨_, s, none⟩ => some (.str s)
    | .unary _ op e =>
      match op with
      | .void | .not | .minus => (literalAt (depth + 1) e).bind op.value?
      | _ => none
    | _ => none

/-- The value of a global name that the language itself defines. -/
def globalValue? : String → Option Value
  | "undefined" => some .undefined
  | "NaN" => some (.num Number.nan)
  | "Infinity" => some (.num Number.infinity)
  | _ => none

def identAt (k : Knowledge) (depth : Nat) (id : Ident) : Option Value := do
  let t ← k.tree
  let s ← t.symbolOf? id
  if s.undeclared then
    guard (s.assignments == 0)
    globalValue? s.name
  else literalAt depth (← s.fixed)

def isMath (k : Knowledge) : Expr → Bool
  | .ident id => id.name == "Math" && (k.tree.bind (·.symbolOf? id)).any (·.undeclared)
  | _ => false

/-- Whether an element of an array is there and is one value. -/
def isPlainElement : Option Expr → Bool
  | some (.spread ..) | none => false
  | some _ => true

/-- A value as a part of a list in a text. -/
def joinedText (v : Value) : String := if v.isNullish then "" else v.toText

def separator : List Value → String
  | [] | .undefined :: _ => ","
  | v :: _ => v.toText

/-- Whether a logical operation has the value of its left operand. -/
def takesLeft (op : LogicalOp) (left : Value) : Bool :=
  match op with
  | .and => !left.toBool
  | .or => left.toBool
  | .nullish => !left.isNullish

/-- A text that is not too long. -/
def boundedText (s : String) : Evaluation Value := .ofOption (Value.ofText? s)

/-- The text of the constant parts of a template. -/
def cookedText? (quasis : List Quasi) : Option String :=
  (quasis.mapM Quasi.cooked).map String.join

def propertyOf (v : Value) (name : String) : Evaluation Value :=
  match v with
  | .str s => if name == "length" then .ok (.num (Number.ofNat (unitLength s)))
    else .error .notConstant
  | _ => .error .notConstant

def callMethod (v : Value) (method : String) (args : List Value) : Evaluation Value :=
  match v with
  | .str s => Builtin.textMethod s method args
  | .num x => Builtin.numberMethod x method args
  | _ => .error .notConstant

mutual

def evalAt (k : Knowledge) (depth : Nat) (e : Expr) : Evaluation Value :=
  if maxDepth < depth then .error .notConstant
  else
    match e with
    | .null _ => .ok .null
    | .bool _ b => .ok (.bool b)
    | .num _ x => .ok (.num x)
    | .str ⟨_, s, none⟩ => .ok (.str s)
    | .ident id => .ofOption (identAt k (depth + 1) id)
    | .template _ quasis es => do boundedText (← templateAt k (depth + 1) quasis es)
    | .unary _ op e =>
      match op with
      | .delete => .error .notConstant
      | .typeof =>
        match objectTypeName? e with
        | some name => .ok (.str name)
        | none => do .ofOption (UnaryOp.typeof.value? (← evalAt k (depth + 1) e))
      | .not =>
        if isFreshObject e then .ok (.bool false)
        else do .ofOption (UnaryOp.not.value? (← evalAt k (depth + 1) e))
      | op => do .ofOption (op.value? (← evalAt k (depth + 1) e))
    | .binary _ op l r =>
      match op with
      | .in | .instanceof => .error .notConstant
      | op => do
        let a ← evalAt k (depth + 1) l
        let b ← evalAt k (depth + 1) r
        .ofOption (op.value? a b)
    | .logical _ op l r => do
      let left ← evalAt k (depth + 1) l
      if takesLeft op left then return left else evalAt k (depth + 1) r
    | .conditional _ test c a => do
      let truth ←
        if isFreshObject test then pure true
        else
          match evalAt k 0 test with
          | .ok v => pure v.toBool
          | .error _ => throw .notConstant
      if !isFreshObject test then let _ ← evalAt k (depth + 1) test
      if truth then evalAt k (depth + 1) c else evalAt k (depth + 1) a
    | .sequence _ es => do .ofOption (← valuesAt k (depth + 1) es).getLast?
    | .member _ _ o p => do
      let name ← propertyAt k (depth + 1) p
      if k.builtins && isMath k o then .ofOption ((Builtin.mathConstant? name).map .num)
      else
        match o with
        | .array _ es =>
          if k.builtins && name == "length" && es.all isPlainElement then
            return .num (Number.ofNat (← elementsAt k (depth + 1) es).length)
          else throw .notConstant
        | o =>
          propertyOf (← evalAt k (depth + 1) o) name
    | .call _ false _ (.member _ _ o (.ident method)) es =>
      if k.builtins then do
        let args ← valuesAt k (depth + 1) es
        if isMath k o then .ofOption ((Builtin.mathFunction? method.name args).map .num)
        else
          match o with
          | .array _ items =>
            if method.name == "join" then
              let parts ← elementsAt k (depth + 1) items
              return .str ((separator args).intercalate parts)
            else throw .notConstant
          | o =>
            callMethod (← evalAt k (depth + 1) o) method.name args
      else .error .notConstant
    | _ => .error .notConstant

def valuesAt (k : Knowledge) (depth : Nat) : List Expr → Evaluation (List Value)
  | [] => return []
  | .spread .. :: _ => throw .notConstant
  | e :: rest => return (← evalAt k depth e) :: (← valuesAt k depth rest)

def elementsAt (k : Knowledge) (depth : Nat) : List (Option Expr) → Evaluation (List String)
  | [] => return []
  | none :: rest => return "" :: (← elementsAt k depth rest)
  | some (.spread ..) :: _ => throw .notConstant
  | some e :: rest => return joinedText (← evalAt k depth e) :: (← elementsAt k depth rest)

def templateAt (k : Knowledge) (depth : Nat) : List Quasi → List Expr → Evaluation String
  | [], _ => return ""
  | quasis, [] => .ofOption (cookedText? quasis)
  | quasi :: quasis, e :: es => do
    let text ← .ofOption quasi.cooked
    let v ← evalAt k depth e
    return text ++ v.toText ++ (← templateAt k depth quasis es)

def propertyAt (k : Knowledge) (depth : Nat) : PropName → Evaluation String
  | .ident id => return id.name
  | .computed e => return (← evalAt k depth e).toText
  | _ => throw .notConstant

end

end Evaluate

def Expr.evaluate (k : Knowledge) (e : Expr) : Evaluation Value := Evaluate.evalAt k 0 e

/-- Whether an expression holds as a condition, if that is known.  An object
always does. -/
def Expr.truth? (k : Knowledge) (e : Expr) : Option Bool :=
  if Evaluate.isFreshObject e then some true
  else (e.evaluate k).toOption.map (·.toBool)

end Laconic
