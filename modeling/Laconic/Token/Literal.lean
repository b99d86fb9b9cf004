import Laconic.Token.Cursor
import Laconic.Number.Read
import Laconic.Text.Units

/-!
# Reading literals and names

Readers for the tokens that are not punctuators.  Each is called with the
cursor after the first character of the token; `start` is the cursor at that
first character.

The loops that move in every round are bounded by the length of the rest of
the text.
-/

namespace Laconic.Literal

open Scan

/-! ## Escapes -/

/-- Reads exactly `count` hexadecimal digits after the value `value`.  Stops
in front of the first character that is none. -/
def hexDigits : Nat → Nat → Scan (Option Nat)
  | 0, value => return some value
  | count + 1, value => do
    match (← peek?).bind (Number.digitValue? 16) with
    | some d =>
      advance
      hexDigits count (value * 16 + d)
    | none => return none

/-- Reads the hexadecimal digits of a braced escape, as long as the value fits
into 32 bits.  `any` says whether a digit has been read. -/
def bracedDigits : Nat → Nat → Bool → Scan (Option (Nat × Bool))
  | 0, value, any => return some (value, any)
  | fuel + 1, value, any => do
    match (← peek?).bind (Number.digitValue? 16) with
    | some d =>
      advance
      if value * 16 + d < twoPow 32 then bracedDigits fuel (value * 16 + d) true else return none
    | none => return some (value, any)

/-- Reads what follows `\u`: four digits, or any number of them in braces. -/
def unicodeEscape : Scan (Option Nat) := do
  if ← eat '{' then
    match ← bracedDigits (← rounds) 0 false with
    | some (value, any) =>
      if any && value ≤ 0x10FFFF && (← peek?) == some '}' then
        advance
        return some value
      return none
    | none => return none
  else hexDigits 4 0

/-- Reads the further digits of an octal escape, at most `count`. -/
def octalDigits : Nat → Nat → Scan Nat
  | 0, value => return value
  | count + 1, value => do
    match (← peek?).bind (Number.digitValue? 8) with
    | some d =>
      advance
      octalDigits count (value * 8 + d)
    | none => return value

def codePointUnits (n : Nat) : List CodeUnit :=
  if n < 0x10000 then [n.toUInt16] else charUnits (Char.ofNat n)

/-- Reads what follows a backslash in a string or template and gives its code
units.  An invalid escape is an error in a string and gives `none` in a
template. -/
def escape (strict template : Bool) : Scan (Option (List CodeUnit)) := do
  let start ← here
  let some c ← peek? | fail .unterminatedEscape start
  advance
  match c with
  | 'n' => return some [0x0A]
  | 't' => return some [0x09]
  | 'r' => return some [0x0D]
  | 'b' => return some [0x08]
  | 'f' => return some [0x0C]
  | 'v' => return some [0x0B]
  | 'x' =>
    match ← hexDigits 2 0 with
    | some value => return some [value.toUInt16]
    | none => if template then return none else fail .badHexEscape start
  | 'u' =>
    match ← unicodeEscape with
    | some value => return some (codePointUnits value)
    | none => if template then return none else fail .badUnicodeEscape start
  | _ =>
    if isLineEnd c then return some []
    else if c == '0' && !((← peek?).any Char.isDigit) then return some [0]
    else if '0' ≤ c && c ≤ '7' then
      if template then return none
      if strict then fail .octalEscape start
      let value ← octalDigits (if c ≤ '3' then 2 else 1) (c.toNat - '0'.toNat)
      return some [value.toUInt16]
    else if c == '8' || c == '9' then
      if template then return none
      if strict then fail .digitEscape start
      return some (charUnits c)
    else return some (charUnits c)

/-! ## Strings and templates -/

/-- Reads a string up to its closing quote.  The units are collected last
first. -/
def stringUnits (strict : Bool) (quote : Char) (start : Position) :
    Nat → List CodeUnit → Scan (List CodeUnit)
  | 0, _ => fail .unterminatedString start
  | fuel + 1, us => do
    match ← peek? with
    | none => fail .unterminatedString start
    | some c =>
      if c == '\n' || c == '\r' then fail .unterminatedString start
      else if c == quote then
        advance
        return us.reverse
      else if c == '\\' then
        advance
        let new ← escape strict false
        stringUnits strict quote start fuel ((new.getD []).reverse ++ us)
      else
        advance
        stringUnits strict quote start fuel ((charUnits c).reverse ++ us)

/-- Reads a string literal.  If a lone surrogate had to be replaced, the
source text is kept. -/
def string (strict : Bool) (quote : Char) (start : Cursor) : Scan Lexeme := do
  let us ← stringUnits strict quote start.pos (← rounds) []
  match decodeUnits? us with
  | some value => return .string value none
  | none => return .string (decodeUnitsLossy us) (some (start.textTo (← get)))

/-- Every line end of a text as a line feed. -/
def normalizeNewlines : List Char → List Char
  | '\r' :: '\n' :: rest => '\n' :: normalizeNewlines rest
  | '\r' :: rest => '\n' :: normalizeNewlines rest
  | c :: rest => c :: normalizeNewlines rest
  | [] => []

/-- What has been read of a part of a template: its source text and its units,
both last first.  There are no units after an invalid escape. -/
structure TemplateText where
  raw : List Char
  cooked : Option (List CodeUnit)

namespace TemplateText

def rawText (t : TemplateText) : String := String.ofList t.raw.reverse

def value? (t : TemplateText) : Option String := t.cooked.map fun us => decodeUnitsLossy us.reverse

/-- A stretch of source text more, and what it stands for. -/
def add (t : TemplateText) (raw : List Char) (us : Option (List CodeUnit)) : TemplateText :=
  ⟨raw.reverse ++ t.raw, t.cooked.bind fun old => us.map (·.reverse ++ old)⟩

end TemplateText

/-- Reads a part of a template up to a substitution or the closing back quote;
the answer says whether a substitution follows. -/
def templateBody (strict : Bool) (start : Position) :
    Nat → TemplateText → Scan (TemplateText × Bool)
  | 0, _ => fail .unterminatedTemplate start
  | fuel + 1, t => do
    match ← peek? with
    | none => fail .unterminatedTemplate start
    | some c =>
      if c == '`' then
        advance
        return (t, false)
      else if c == '$' && (← peekSecond?) == some '{' then
        advance
        advance
        return (t, true)
      else if c == '\\' then
        let before ← get
        advance
        let new ← escape strict true
        let raw := normalizeNewlines (before.textTo (← get)).toList
        templateBody strict start fuel (t.add raw new)
      else
        advance
        let c := if c == '\r' then '\n' else c
        templateBody strict start fuel (t.add [c] (some (charUnits c)))

/-! ## Regular expressions -/

/-- Moves to the slash that closes a regular expression.  A slash inside a
character class does not close it. -/
def regexpBody (start : Position) : Nat → Bool → Scan Unit
  | 0, _ => fail .unterminatedRegexp start
  | fuel + 1, inClass => do
    match ← peek? with
    | none => fail .unterminatedRegexp start
    | some c =>
      if isLineEnd c then fail .unterminatedRegexp start
      else if c == '/' && !inClass then return
      else
        advance
        if c == '[' then regexpBody start fuel true
        else if c == ']' then regexpBody start fuel false
        else if c == '\\' then
          match ← peek? with
          | none => fail .unterminatedRegexp start
          | some c =>
            if isLineEnd c then fail .unterminatedRegexp start
            advance
            regexpBody start fuel inClass
        else regexpBody start fuel inClass

/-- The flags of regular expressions. -/
def regexpFlags : List Char := "dgimsuyv".toList

/-- Whether every flag is known and none is given twice. -/
def validFlags : List Char → Bool
  | [] => true
  | c :: rest => regexpFlags.contains c && !rest.contains c && validFlags rest

/-- Reads a regular expression after its opening slash. -/
def regexp (start : Position) : Scan Lexeme := do
  let body ← get
  regexpBody start (← rounds) false
  let pattern := body.textTo (← get)
  advance
  let flagsStart ← get
  skipWhile isIdPart
  let flags := flagsStart.textTo (← get)
  if validFlags flags.toList then return .regexp pattern flags
  fail .badRegexpFlags start

/-! ## Numbers -/

def digits (radix : Nat) : Scan Unit :=
  skipWhile fun c => (Number.digitValue? radix c).isSome || c == '_'

/-- Reads an exponent if one follows; the answer says whether it did. -/
def exponent : Scan Bool := do
  match ← peek? with
  | some c =>
    if c == 'e' || c == 'E' then
      advance
      if (← peek?).any fun c => c == '+' || c == '-' then advance
      if !(← peek?).any Char.isDigit then fail .badExponent (← here)
      digits 10
      return true
    return false
  | none => return false

inductive Numeral where
  /-- Digits of a radix after a mark such as `0x`. -/
  | marked (radix : Nat)
  /-- Octal digits after a leading zero. -/
  | legacyOctal
  /-- A decimal whole number. -/
  | whole
  /-- A decimal number with a point or an exponent. -/
  | fraction
deriving DecidableEq

/-- Reads the digits after a point, and an exponent. -/
def fractionDigits : Scan Numeral := do
  digits 10
  discard exponent
  return .fraction

/-- Reads the rest of a numeral that starts with a zero. -/
def afterZero (strict : Bool) (start : Cursor) : Scan Numeral := do
  match ← peek? with
  | none => return .whole
  | some c =>
    if c == 'x' || c == 'X' then
      advance
      digits 16
      return .marked 16
    else if c == 'o' || c == 'O' then
      advance
      digits 8
      return .marked 8
    else if c == 'b' || c == 'B' then
      advance
      digits 2
      return .marked 2
    else if c.isDigit then
      if strict then fail .octalLiteral start.pos
      digits 10
      let spelled := (start.textTo (← get)).toList.drop 1
      if spelled.all fun d => '0' ≤ d && d ≤ '7' then return .legacyOctal
      if ← eat '.' then fractionDigits
      else return if ← exponent then .fraction else .whole
    else if c == '.' then
      advance
      fractionDigits
    else if c == 'e' || c == 'E' then
      discard exponent
      return .fraction
    else return .whole

def afterDigit : Scan Numeral := do
  digits 10
  if ← eat '.' then fractionDigits
  else return if ← exponent then .fraction else .whole

/-- A numeral must not run into a name or another numeral. -/
def checkAfterNumber : Scan Unit := do
  if (← peek?).any fun c => isIdStart c || c.isDigit || c == '\\' then
    fail .afterNumber (← here)

def numeralValue? (form : Numeral) (spelled : List Char) : Option Float :=
  let spelled := spelled.filter (· != '_')
  match form with
  | .legacyOctal => Number.readRadix? 8 (spelled.drop 1)
  | .marked radix =>
    if spelled.length ≤ 2 then none else Number.readRadix? radix (spelled.drop 2)
  | .whole | .fraction => Number.readDecimal? spelled

/-- Reads a number or a whole number of any size; `first` is its first
character. -/
def number (strict : Bool) (first : Char) (start : Cursor) : Scan Lexeme := do
  let form ←
    if first == '0' then afterZero strict start
    else if first == '.' then fractionDigits
    else afterDigit
  if (form == .whole || form matches .marked _) && (← peek?) == some 'n' then
    let spelled := start.textTo (← get)
    advance
    checkAfterNumber
    return .bigint (String.ofList (spelled.toList.filter (· != '_')))
  checkAfterNumber
  match numeralValue? form (start.textTo (← get)).toList with
  | some value => return .number value
  | none => fail .badNumber start.pos

/-! ## Names -/

/-- Reads the escape of a character in a name, after its backslash. -/
def nameEscape (start : Position) : Scan Char := do
  if !(← eat 'u') then fail .unicodeEscapeExpected start
  match ← unicodeEscape with
  | some n => if n.isValidChar then return Char.ofNat n else fail .badUnicodeEscape start
  | none => fail .badUnicodeEscape start

/-- Reads the further characters of a name, collected last first; the answer
says whether one was escaped. -/
def nameRest : Nat → List Char → Bool → Scan (List Char × Bool)
  | 0, name, escaped => return (name, escaped)
  | fuel + 1, name, escaped => do
    match ← peek? with
    | none => return (name, escaped)
    | some c =>
      if isIdPart c then
        advance
        nameRest fuel (c :: name) escaped
      else if c == '\\' then
        let start ← here
        advance
        let c ← nameEscape start
        if !isIdPart c then fail .badIdentifierPart start
        nameRest fuel (c :: name) true
      else return (name, escaped)

/-- Reads a name whose first character, or the backslash of whose first
escape, is `first`; the answer says whether a character was escaped. -/
def name (first : Char) (start : Position) : Scan (String × Bool) := do
  let c ← if first == '\\' then nameEscape start else pure first
  if !isIdStart c then fail .badIdentifierStart start
  let (reversed, escaped) ← nameRest (← rounds) [c] (first == '\\')
  return (String.ofList reversed.reverse, escaped)

/-- Reads a name or word.  A word spelled with an escape is an ordinary
name. -/
def identifier (first : Char) (start : Position) : Scan Lexeme := do
  let (text, escaped) ← name first start
  if escaped then return .identifier text
  match Word.ofText? text with
  | some w => return .word w
  | none => return .identifier text

def privateName (start : Position) : Scan Lexeme := do
  match ← peek? with
  | some c =>
    if isIdStart c || c == '\\' then
      advance
      let (text, _) ← name c start
      return .privateName text
    fail .strayHash start
  | none => fail .strayHash start

end Laconic.Literal
