import Laconic.Constant.Value
import Laconic.Text.Casing

/-!
# Methods of primitive values

The methods of texts and numbers and the functions of `Math` whose results can
be worked out before the program runs.
-/

namespace Laconic

/-- Why a call of a method would throw. -/
inductive CallFault where
  /-- A text cannot be repeated so many times. -/
  | badCount (count : Float)
  /-- A number cannot be written with so many places. -/
  | badPlaces

def CallFault.message : CallFault → String
  | .badCount count => "Invalid count value: " ++ Number.text count
  | .badPlaces => "toFixed() digits argument must be between 0 and 100"

/-- Why an expression has no value before the program runs. -/
inductive Unevaluated where
  | notConstant
  | throws (fault : CallFault)

/-- A value that is being worked out. -/
abbrev Evaluation := Except Unevaluated

namespace Evaluation

def ofOption {α : Type} : Option α → Evaluation α
  | some a => .ok a
  | none => .error .notConstant

def toOption {α : Type} : Evaluation α → Option α
  | .ok a => some a
  | .error _ => none

end Evaluation

namespace Builtin

/-- An argument as a number.  An absent one and `undefined` stand for the
default. -/
def argument (args : List Value) (i : Nat) (default : Float) : Float :=
  match args[i]? with
  | none | some .undefined => default
  | some v => v.toNumber

/-- An index that counts from the end if it is negative, cut to the length. -/
def relativeIndex (x : Float) (length : Nat) : Nat :=
  if x.isNaN then 0
  else if x.isInf then if x < 0 then 0 else length
  else
    let n := Number.truncate x
    if n < 0 then (length + n).toNat else min n.toNat length

def absoluteIndex (x : Float) (length : Nat) : Nat :=
  if x.isNaN then 0
  else if x.isInf then if x < 0 then 0 else length
  else min (Number.truncate x).toNat length

/-- The text of the units from one index to another. -/
def unitSlice (us : List CodeUnit) (start stop : Nat) : String :=
  decodeUnitsLossy ((us.take stop).drop start)

/-- The indices at which one list stands in another. -/
def occurrences (needle us : List CodeUnit) : List Nat :=
  (List.range (us.length + 1)).filter fun i => needle.isPrefixOf (us.drop i)

def firstIndex (us : List CodeUnit) (needle : String) : Float :=
  match (occurrences (units needle) us).head? with
  | some i => Number.ofNat i
  | none => -1

/-- The last index at which one text stands in another, or -1. -/
def lastIndex (us : List CodeUnit) (needle : String) : Float :=
  match (occurrences (units needle) us).getLast? with
  | some i => Number.ofNat i
  | none => -1

/-- Whether one list of characters stands in another. -/
def includes (needle : List Char) : List Char → Bool
  | [] => needle.isEmpty
  | c :: rest => needle.isPrefixOf (c :: rest) || includes needle rest

def charAt (us : List CodeUnit) (x : Float) : String :=
  if x.isNaN then unitSlice us 0 1
  else if x < 0 || Number.ofNat us.length ≤ x then ""
  else
    let i := (Number.truncate x).toNat
    unitSlice us i (i + 1)

def charCodeAt (us : List CodeUnit) (x : Float) : Float :=
  let x := if x.isNaN then 0 else Number.trunc x
  if x < 0 || Number.ofNat us.length ≤ x then Number.nan
  else
    match us[(Number.truncate x).toNat]? with
    | some u => Number.ofNat u.toNat
    | none => Number.nan

def repeatText (s : String) (x : Float) : Evaluation Value := do
  if x < 0 || x.isInf then throw (.throws (.badCount x))
  let count := if x.isNaN then 0 else (Number.truncate x).toNat
  if maxTextLength < unitLength s * count then throw .notConstant
  return .str (if s.isEmpty then "" else String.join (List.replicate count s))

/-- The methods of a text that look for another one. -/
def search? (s : String) (us : List CodeUnit) (method needle : String) : Option Value :=
  match method with
  | "indexOf" => some (.num (firstIndex us needle))
  | "lastIndexOf" => some (.num (lastIndex us needle))
  | "includes" => some (.bool (includes needle.toList s.toList))
  | "startsWith" => some (.bool (needle.toList.isPrefixOf s.toList))
  | "endsWith" => some (.bool (needle.toList.isSuffixOf s.toList))
  | _ => none

def textMethod (s method : String) (args : List Value) : Evaluation Value :=
  let us := units s
  let length := us.length
  let all := Number.ofNat length
  match method with
  | "charAt" => return .str (charAt us (argument args 0 0))
  | "charCodeAt" => return .num (charCodeAt us (argument args 0 0))
  | "slice" =>
    let start := relativeIndex (argument args 0 0) length
    let stop := relativeIndex (argument args 1 all) length
    return .str (unitSlice us start stop)
  | "substring" =>
    let a := absoluteIndex (argument args 0 0) length
    let b := absoluteIndex (argument args 1 all) length
    return .str (unitSlice us (min a b) (max a b))
  | "toUpperCase" => return .str (uppercase s)
  | "toLowerCase" => return .str (lowercase s)
  | "trim" => return .str (trimChars isBlank s)
  | "concat" => return .str (s ++ String.join (args.map (·.toText)))
  | "repeat" => repeatText s (argument args 0 0)
  | _ =>
    match args with
    | [] => .ofOption (search? s us method "undefined")
    | [needle] => .ofOption (search? s us method needle.toText)
    | _ => throw .notConstant

/-- A whole number with the given count of places. -/
def fixedText (x : Float) (places : Nat) : String :=
  (if Number.signBit x then "-" else "") ++ toString (Number.truncate x).natAbs
    ++ (if places == 0 then "" else "." ++ Number.zeros places)

/-- The methods of a number.  Only whole numbers are written with places, so
that nothing is rounded. -/
def numberMethod (x : Float) (method : String) (args : List Value) : Evaluation Value :=
  match method with
  | "toString" => if args.isEmpty then return .str (Number.text x) else throw .notConstant
  | "toFixed" => do
    let places := argument args 0 0
    if !(0 ≤ places && places ≤ 100) then throw (.throws .badPlaces)
    if x.isNaN || x.isInf || !Number.isWhole x || 1e21 ≤ x.abs then throw .notConstant
    return .str (fixedText x (Number.truncate places).toNat)
  | _ => throw .notConstant

def mathConstant? : String → Option Float
  | "PI" => some 3.141592653589793
  | "E" => some 2.718281828459045
  | "LN2" => some 0.6931471805599453
  | "LN10" => some 2.302585092994046
  | "SQRT2" => some 1.4142135623730951
  | _ => none

/-- The nearest whole number; a half goes up. -/
def roundHalfUp (x : Float) : Float :=
  if x.isNaN || x.isInf || x == 0 then x
  else if -0.5 ≤ x && x < 0 then -0.0
  else (x + 0.5).floor

def sign (x : Float) : Float :=
  if x.isNaN || x == 0 then x else if x < 0 then -1 else 1

/-- The number that comes first in an order; of two zeros it is the later one.
One that is not a number comes before all others. -/
def extreme (before : Float → Float → Bool) (start : Float) (args : List Value) : Float :=
  args.foldl (fun best v =>
    let x := v.toNumber
    if best.isNaN || x.isNaN then Number.nan else if before best x then best else x) start

def mathFunction? (name : String) (args : List Value) : Option Float :=
  let x := argument args 0 Number.nan
  match name with
  | "floor" => some x.floor
  | "ceil" => some x.ceil
  | "trunc" => some (if x.isNaN || x.isInf then x else Number.trunc x)
  | "abs" => some x.abs
  | "sqrt" => some x.sqrt
  | "sign" => some (sign x)
  | "round" => some (roundHalfUp x)
  | "pow" => some (Number.power x (argument args 1 Number.nan))
  | "min" => some (extreme (fun x y => x < y) Number.infinity args)
  | "max" => some (extreme (fun x y => y < x) (-Number.infinity) args)
  | _ => none

end Builtin

end Laconic
