import Laconic.Number.Text
import Laconic.Text.Units
import Laconic.Token.Basic

/-!
# The text of literals and names

The shortest spelling of a number, strings in the quotes that need fewer
escapes, and the escapes that keep the text plain ASCII or fit to stand in an
HTML page.
-/

namespace Laconic

/-- Which comments are written. -/
inductive CommentFilter where
  | nothing
  /-- The comments that carry a notice. -/
  | notices
  | everything
deriving DecidableEq, Repr

/-- How a program is written. -/
structure OutputOptions where
  /-- One statement a line, indented. -/
  beautify : Bool := false
  indentLevel : Nat := 4
  comments : CommentFilter := .notices
  /-- The edition of the language that may be used. -/
  ecma : Nat := 5
  /-- A line ends after a statement once it is longer; zero for never. -/
  maxLineLen : Nat := 0
  /-- Whether characters beyond ASCII are escaped. -/
  asciiOnly : Bool := false
  /-- Whether what would end a script in an HTML page is escaped. -/
  inlineScript : Bool := true
  quoteKeys : Bool := false
  /-- Whether statements are parted by semicolons rather than line ends. -/
  semicolons : Bool := true
  /-- A text that comes first. -/
  preamble : Option String := none
  /-- Whether a first line with `#!` is kept. -/
  shebang : Bool := true
  /-- Whether a function that is called at once stands in parentheses. -/
  wrapIife : Bool := false
deriving DecidableEq, Repr

namespace Spelling

/-! ## Escapes -/

/-- Hexadecimal digits of a number, filled up with zeros to a width. -/
def hex (width n : Nat) : List Char :=
  let digits := Nat.toDigits 16 n
  List.replicate (width - digits.length) '0' ++ digits

def unitEscapes (c : Char) : List Char :=
  (charUnits c).flatMap fun u => '\\' :: 'u' :: hex 4 u.toNat

def charEscape (c : Char) : List Char :=
  if c.toNat ≤ 0xff then '\\' :: 'x' :: hex 2 c.toNat else unitEscapes c

def isAscii (c : Char) : Bool := c.toNat < 0x80

def asciiEscape (cs : List Char) : List Char :=
  cs.flatMap fun c => if isAscii c then [c] else unitEscapes c

/-- Whether a text begins with the name of a script element, in any case. -/
def startsScript (cs : List Char) : Bool :=
  (cs.take 6).map Char.toLower == ['s', 'c', 'r', 'i', 'p', 't']

/-- A text in which the marks that would end a script element, or start or end
an HTML comment, are escaped. -/
def inlineScript : List Char → List Char
  | [] => []
  | '<' :: '/' :: rest =>
    if startsScript rest then '<' :: '\\' :: '/' :: inlineScript rest
    else '<' :: inlineScript ('/' :: rest)
  | '<' :: '!' :: '-' :: '-' :: rest =>
    '\\' :: 'x' :: '3' :: 'c' :: '!' :: '-' :: '-' :: inlineScript rest
  | '-' :: '-' :: '>' :: rest => '-' :: '-' :: '\\' :: 'x' :: '3' :: 'e' :: inlineScript rest
  | c :: rest => c :: inlineScript rest

def escapeText (o : OutputOptions) (s : String) : String :=
  let cs := if o.inlineScript then inlineScript s.toList else s.toList
  String.ofList (if o.asciiOnly then asciiEscape cs else cs)

/-- A regular expression with the escapes that the options ask for. -/
def regexp (o : OutputOptions) (pattern flags : String) : String :=
  let cs := ("/" ++ pattern ++ "/" ++ flags).toList
  let cs := if o.asciiOnly then asciiEscape cs else cs
  String.ofList (if o.inlineScript then inlineScript cs else cs)

/-! ## Names -/

def nameEscape (c : Char) : List Char :=
  if isAscii c then [c]
  else if c.toNat ≤ 0xffff then '\\' :: 'u' :: hex 4 c.toNat
  else '\\' :: 'u' :: '{' :: Nat.toDigits 16 c.toNat ++ ['}']

def name (o : OutputOptions) (s : String) : String :=
  if o.asciiOnly then String.ofList (s.toList.flatMap nameEscape) else s

/-! ## Strings -/

/-- A character of a string in the given quotes; `next` is the one after it. -/
def stringChar (asciiOnly : Bool) (quote c : Char) (next : Option Char) : List Char :=
  match c with
  | '\\' => ['\\', '\\']
  | '\n' => ['\\', 'n']
  | '\r' => ['\\', 'r']
  | '\x08' => ['\\', 'b']
  | '\x0c' => ['\\', 'f']
  | '\x0b' => ['\\', 'v']
  | '\u2028' => ['\\', 'u', '2', '0', '2', '8']
  | '\u2029' => ['\\', 'u', '2', '0', '2', '9']
  | '\ufeff' => ['\\', 'u', 'f', 'e', 'f', 'f']
  | '\x00' => if next.any Char.isDigit then ['\\', 'x', '0', '0'] else ['\\', '0']
  | '\t' => ['\t']
  | c =>
    if c == quote then ['\\', c]
    else if c.toNat < 0x20 || c.toNat == 0x7f then charEscape c
    else if asciiOnly && !isAscii c then charEscape c
    else [c]

def stringBody (asciiOnly : Bool) (quote : Char) : List Char → List Char
  | [] => []
  | c :: rest => stringChar asciiOnly quote c rest.head? ++ stringBody asciiOnly quote rest

/-- The quote that a string needs fewer escapes in. -/
def quoteFor (cs : List Char) : Char := if cs.count '\'' < cs.count '"' then '\'' else '"'

def quote (o : OutputOptions) (s : String) : String :=
  let q := quoteFor s.toList
  let cs := q :: stringBody o.asciiOnly q s.toList ++ [q]
  String.ofList (if o.inlineScript then inlineScript cs else cs)

/-! ## Numbers -/

/-- The spellings of a number that starts with `0.`, given what follows that:
without the zero, and as a whole number with an exponent. -/
def fractionSpellings (rest : List Char) : List (List Char) :=
  let digits := rest.dropWhile (· == '0')
  ('.' :: rest) ::
    if digits.contains 'e' then []
    else [digits ++ ['e', '-'] ++ Nat.toDigits 10 rest.length]

/-- A text without the sign of a positive exponent. -/
def dropPlus : List Char → List Char
  | 'e' :: '+' :: rest => 'e' :: dropPlus rest
  | c :: rest => c :: dropPlus rest
  | [] => []

/-- The spellings of a whole number: hexadecimal, and with an exponent for its
zeros. -/
def wholeSpellings (n : Nat) : List (List Char) :=
  let digits := Nat.toDigits 10 n
  let zeros := (digits.reverse.takeWhile (· == '0')).length
  ('0' :: 'x' :: Nat.toDigits 16 n) ::
    if 2 < zeros then [digits.take (digits.length - zeros) ++ 'e' :: Nat.toDigits 10 zeros]
    else []

def firstShortest (best : List Char) (others : List (List Char)) : List Char :=
  others.foldl (fun best t => if t.length < best.length then t else best) best

/-- The shortest spelling of a finite number from zero on. -/
def numeral (x : Float) : String :=
  let text := (Number.text x).toList
  let fraction :=
    match text with
    | '0' :: '.' :: rest => fractionSpellings rest
    | _ => []
  let whole :=
    if Number.isWhole x && x < 9007199254740992 then wholeSpellings (Number.truncate x).toNat
    else []
  String.ofList (firstShortest text (fraction ++ [dropPlus text] ++ whole))

end Spelling

end Laconic
