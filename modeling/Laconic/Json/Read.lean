import Laconic.Json.Basic
import Laconic.Number.Read
import Laconic.Text.Units

/-!
# Reading JSON

A reader takes a value off the front of a text.  Arrays and objects nest at
most `Json.maxDepth` levels, so the reader of a level is built from the reader
of the level below it, and the items of one level are bounded by the length of
the text.

A number that is not whole is read by scaling its digits with a power of ten in
double arithmetic.  For up to fifteen digits and twenty-two places this gives the
nearest double; beyond that the last bit may differ.
-/

namespace Laconic.Json

/-- How deep arrays and objects may nest. -/
def maxDepth : Nat := 127

/-- Takes a value off the front of a text. -/
abbrev Reader (α : Type) := List Char → Option (α × List Char)

def isJsonBlank (c : Char) : Bool := c == ' ' || c == '\n' || c == '\t' || c == '\r'

/-- A text from its first character that is no blank on. -/
def skipBlanks (cs : List Char) : List Char := cs.dropWhile isJsonBlank

/-! ## Strings -/

/-- Reads the four digits of an escape. -/
def hexUnit? : Reader Nat
  | a :: b :: c :: d :: rest => do
    let digit := Number.digitValue? 16
    some ((((← digit a) * 16 + (← digit b)) * 16 + (← digit c)) * 16 + (← digit d), rest)
  | _ => none

/-- Reads a character by its code, after `\u`.  One beyond 16 bits takes two
escapes. -/
def unicodeChar? (cs : List Char) : Option (Char × List Char) := do
  let (high, rest) ← hexUnit? cs
  if 0xD800 ≤ high ∧ high < 0xDC00 then
    match rest with
    | '\\' :: 'u' :: rest =>
      let (low, rest) ← hexUnit? rest
      if 0xDC00 ≤ low ∧ low < 0xE000 then
        some (Char.ofNat (0x10000 + (high - 0xD800) * 0x400 + (low - 0xDC00)), rest)
      else none
    | _ => none
  else if 0xDC00 ≤ high ∧ high < 0xE000 then none
  else some (Char.ofNat high, rest)

/-- The character that a letter stands for after a backslash. -/
def simpleEscape? : Char → Option Char
  | '"' => some '"'
  | '\\' => some '\\'
  | '/' => some '/'
  | 'b' => some '\x08'
  | 'f' => some '\x0c'
  | 'n' => some '\n'
  | 'r' => some '\r'
  | 't' => some '\t'
  | _ => none

/-- Reads the rest of a string after its opening quote, collected last
first. -/
def stringRest : Nat → List Char → Reader String
  | 0, _, _ => none
  | _ + 1, acc, '"' :: rest => some (String.ofList acc.reverse, rest)
  | bound + 1, acc, '\\' :: 'u' :: rest => do
    let (c, rest) ← unicodeChar? rest
    stringRest bound (c :: acc) rest
  | bound + 1, acc, '\\' :: c :: rest => do
    stringRest bound ((← simpleEscape? c) :: acc) rest
  | bound + 1, acc, c :: rest =>
    if c.toNat < 0x20 then none else stringRest bound (c :: acc) rest
  | _ + 1, _, [] => none

def string? (cs : List Char) : Option (String × List Char) := stringRest (cs.length + 1) [] cs

/-! ## Numbers -/

/-- Splits digits off the front of a text; there must be one. -/
def digits? (cs : List Char) : Option (List Char × List Char) :=
  match cs.takeWhile Char.isDigit with
  | [] => none
  | ds => some (ds, cs.dropWhile Char.isDigit)

/-- Splits the digits of a whole number off the front of a text.  Only the
number zero starts with a zero. -/
def wholeDigits? : Reader (List Char)
  | '0' :: rest => if (rest.headD ' ').isDigit then none else some (['0'], rest)
  | cs => digits? cs

/-- Splits a point and digits off the front of a text, if it starts with a
point. -/
def fractionDigits? : Reader (List Char)
  | '.' :: rest => (digits? rest).map fun (ds, rest) => ('.' :: ds, rest)
  | rest => some ([], rest)

/-- Splits an exponent off the front of a text, if it starts with one. -/
def exponentDigits? : Reader (List Char)
  | c :: rest =>
    if c == 'e' || c == 'E' then
      match rest with
      | '+' :: rest => (digits? rest).map fun (ds, rest) => ('e' :: ds, rest)
      | '-' :: rest => (digits? rest).map fun (ds, rest) => ('e' :: '-' :: ds, rest)
      | rest => (digits? rest).map fun (ds, rest) => ('e' :: ds, rest)
    else some ([], c :: rest)
  | [] => some ([], [])

/-- Appends digits to a whole number as long as it fits 64 bits; the second
part of the answer counts the digits that are left. -/
def appendDigits (n : Nat) : List Char → Nat × Nat
  | [] => (n, 0)
  | c :: rest =>
    let next := 10 * n + (c.toNat - '0'.toNat)
    if next < twoPow 64 then appendDigits next rest else (n, rest.length + 1)

/-- The largest power of ten that is a double has this exponent. -/
def maxTen : Nat := 308

def tenDouble (k : Nat) : Float := Number.ofDecimal 1 k

/-- A double divided by ten to the power `k`, by at most `maxTen` places at a
time. -/
def divideTen (x : Float) (k : Nat) : Float :=
  if k ≤ maxTen then x / tenDouble k
  else if x == 0 then x
  else divideTen (x / tenDouble maxTen) (k - maxTen)
termination_by k
decreasing_by simp only [maxTen] at *; omega

/-- A double times ten to the power `e`, unless it is too large.  The power is
rounded and so is the result. -/
def scaleTen? (x : Float) (e : Int) : Option Float :=
  match e with
  | .ofNat k =>
    if maxTen < k then if x == 0 then some x else none
    else
      let y := x * tenDouble k
      if y.isInf then none else some y
  | .negSucc k => some (divideTen x (k + 1))

/-- The value of a numeral with a fraction, an exponent or more than 64 bits.
Digits that do not fit 64 bits are passed over, and the others are scaled in
double arithmetic. -/
def scaledOf? (whole fraction exponent : List Char) : Option Float := do
  let (n, skipped) := appendDigits 0 whole
  let digits := fraction.drop 1
  let (n, left) := appendDigits n digits
  let shift : Int := (skipped : Int) - (digits.length - left : Nat)
  scaleTen? (Number.ofNat n) ((← Number.readExponent? exponent) + shift)

/-- The value of a numeral given in parts. -/
def numberOf (negative : Bool) (whole fraction exponent : List Char) : Option Json :=
  let n := Number.natOfDigits whole
  if fraction.isEmpty && exponent.isEmpty
      && (if negative then 0 < n && n ≤ twoPow 63 else n < twoPow 64) then
    some (.int (if negative then -(n : Int) else n))
  else
    (scaledOf? whole fraction exponent).map fun x => .float (if negative then -x else x)

def number? (cs : List Char) : Option (Json × List Char) := do
  let (negative, cs) :=
    match cs with
    | '-' :: rest => (true, rest)
    | cs => (false, cs)
  let (whole, cs) ← wholeDigits? cs
  let (fraction, cs) ← fractionDigits? cs
  let (exponent, cs) ← exponentDigits? cs
  some (← numberOf negative whole fraction exponent, cs)

/-! ## Values -/

/-- Reads the items of an array after a bracket or comma. -/
def items (value : Reader Json) : Nat → List Json → Reader Json
  | 0, _, _ => none
  | bound + 1, acc, cs => do
    let (v, rest) ← value (skipBlanks cs)
    match skipBlanks rest with
    | ',' :: rest => items value bound (v :: acc) rest
    | ']' :: rest => some (.arr (v :: acc).reverse, rest)
    | _ => none

/-- Reads the members of an object after a brace or comma. -/
def members (value : Reader Json) : Nat → List (String × Json) → Reader Json
  | 0, _, _ => none
  | bound + 1, acc, cs =>
    match skipBlanks cs with
    | '"' :: rest => do
      let (key, rest) ← string? rest
      match skipBlanks rest with
      | ':' :: rest =>
        let (v, rest) ← value (skipBlanks rest)
        match skipBlanks rest with
        | ',' :: rest => members value bound ((key, v) :: acc) rest
        | '}' :: rest => some (.obj ((key, v) :: acc).reverse, rest)
        | _ => none
      | _ => none
    | _ => none

/-- Reads a value, within which arrays and objects nest at most `depth`
levels. -/
def valueAt : Nat → Reader Json
  | _, 'n' :: 'u' :: 'l' :: 'l' :: rest => some (.null, rest)
  | _, 't' :: 'r' :: 'u' :: 'e' :: rest => some (.bool true, rest)
  | _, 'f' :: 'a' :: 'l' :: 's' :: 'e' :: rest => some (.bool false, rest)
  | _, '"' :: rest => (string? rest).map fun (s, rest) => (.str s, rest)
  | depth + 1, '[' :: rest =>
    match skipBlanks rest with
    | ']' :: rest => some (.arr [], rest)
    | cs => items (valueAt depth) (cs.length + 1) [] cs
  | depth + 1, '{' :: rest =>
    match skipBlanks rest with
    | '}' :: rest => some (.obj [], rest)
    | cs => members (valueAt depth) (cs.length + 1) [] cs
  | _, cs => number? cs

def parse? (text : String) : Option Json :=
  match valueAt maxDepth (skipBlanks text.toList) with
  | some (v, rest) => if (skipBlanks rest).isEmpty then some v else none
  | none => none

end Laconic.Json
