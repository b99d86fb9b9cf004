/-!
# Patterns

Regular expressions over characters: literals, classes, groups, alternatives,
repetitions and the two ends of the text.  A pattern is found in a text if it
matches some part of it.
-/

namespace Laconic

/-- A regular expression. -/
inductive Pattern where
  | empty
  /-- A character that is in one of the ranges, or in none of them if it is
  negated. -/
  | char (negated : Bool) (ranges : List (Char × Char))
  | textStart
  | textEnd
  | seq (first second : Pattern)
  | alt (first second : Pattern)
  | star (body : Pattern)

namespace Pattern

/-! ## Matching -/

def hasChar (negated : Bool) (ranges : List (Char × Char)) (c : Char) : Bool :=
  negated != ranges.any fun r => r.1 ≤ c && c ≤ r.2

/-- Adds numbers to a list that it does not have yet. -/
def insertAll (known new : List Nat) : List Nat :=
  new.foldl (fun known i => if known.contains i then known else known ++ [i]) known

/-- The positions that are reached by repeating a step, up to so many times. -/
def closure (step : Nat → List Nat) : Nat → List Nat → List Nat
  | 0, known => known
  | rounds + 1, known => closure step rounds (insertAll known (known.flatMap step))

/-- The positions at which a match that begins at a position can end. -/
def ends (text : List Char) : Pattern → Nat → List Nat
  | .empty, i => [i]
  | .char negated ranges, i =>
    match text[i]? with
    | some c => if hasChar negated ranges c then [i + 1] else []
    | none => []
  | .textStart, i => if i == 0 then [i] else []
  | .textEnd, i => if i == text.length then [i] else []
  | .seq first second, i => (ends text first i).flatMap (ends text second)
  | .alt first second, i => ends text first i ++ ends text second i
  | .star body, i => closure (ends text body) (text.length + 1) [i]

/-- Whether a pattern matches some part of a text. -/
def isFoundIn (p : Pattern) (s : String) : Bool :=
  (List.range (s.toList.length + 1)).any fun i => !(ends s.toList p i).isEmpty

/-! ## Reading -/

def single (c : Char) : Pattern := .char false [(c, c)]

/-- Any character but the end of a line. -/
def any : Pattern := .char true [('\n', '\n')]

def times : Nat → Pattern → Pattern
  | 0, _ => .empty
  | n + 1, p => .seq p (times n p)

def atMost : Nat → Pattern → Pattern
  | 0, _ => .empty
  | n + 1, p => .alt (.seq p (atMost n p)) .empty

/-- The characters that have a meaning of their own unless a backslash is before
them. -/
def isMeta (c : Char) : Bool := "\\.+*?()|[]\x7b\x7d^$#&-~".toList.contains c

/-- Reads the characters of a class up to its end.  The first character is in the
class even if it would end it. -/
def classRest : Nat → Bool → List (Char × Char) → List Char →
    Option (List (Char × Char) × List Char)
  | 0, _, _, _ => none
  | fuel + 1, first, ranges, cs =>
    match cs with
    | [] => none
    | ']' :: rest => if first then classRest fuel false (ranges ++ [(']', ']')]) rest
      else some (ranges, rest)
    | '\\' :: c :: rest =>
      if isMeta c then classRest fuel false (ranges ++ [(c, c)]) rest else none
    | '[' :: _ => none
    | low :: '-' :: high :: rest =>
      if high == ']' then classRest fuel false (ranges ++ [(low, low), ('-', '-')]) (high :: rest)
      else if high < low || high == '\\' || high == '[' then none
      else classRest fuel false (ranges ++ [(low, high)]) rest
    | c :: rest => classRest fuel false (ranges ++ [(c, c)]) rest

/-- Reads a class after its opening bracket. -/
def charClass (cs : List Char) : Option (Pattern × List Char) :=
  let (negated, cs) := match cs with
    | '^' :: rest => (true, rest)
    | cs => (false, cs)
  (classRest (cs.length + 1) true [] cs).map fun (ranges, rest) => (.char negated ranges, rest)

def number (cs : List Char) : Option (Nat × List Char) :=
  let digits := cs.takeWhile Char.isDigit
  if digits.isEmpty then none
  else
    some (digits.foldl (fun n c => 10 * n + (c.toNat - '0'.toNat)) 0, cs.dropWhile Char.isDigit)

/-- Reads how often a pattern is repeated, after the opening brace. -/
def counts (p : Pattern) (cs : List Char) : Option (Pattern × List Char) := do
  let (low, cs) ← number cs
  match cs with
  | '\x7d' :: rest => return (times low p, rest)
  | ',' :: '\x7d' :: rest => return (.seq (times low p) (.star p), rest)
  | ',' :: cs =>
    let (high, cs) ← number cs
    match cs with
    | '\x7d' :: rest =>
      if high < low then none
      else return (.seq (times low p) (atMost (high - low) p), rest)
    | _ => none
  | _ => none

def repetitions : Nat → Pattern → List Char → Option (Pattern × List Char)
  | 0, _, _ => none
  | fuel + 1, p, cs =>
    match cs with
    | '*' :: rest => repetitions fuel (.star p) (lazyMark rest)
    | '+' :: rest => repetitions fuel (.seq p (.star p)) (lazyMark rest)
    | '?' :: rest => repetitions fuel (.alt p .empty) (lazyMark rest)
    | '\x7b' :: rest => do
      let (p, rest) ← counts p rest
      repetitions fuel p (lazyMark rest)
    | cs => some (p, cs)
where
  /-- Skips the mark for as few repetitions as possible, which does not change
  what is found. -/
  lazyMark : List Char → List Char
    | '?' :: rest => rest
    | cs => cs

/-- Reads one item without its repetitions; `inner` reads what stands in a
group. -/
def item (inner : List Char → Option (Pattern × List Char)) :
    List Char → Option (Pattern × List Char)
  | '(' :: cs => do
    let cs := match cs with
      | '?' :: ':' :: rest => rest
      | cs => cs
    guard (cs.head? != some '?')
    match ← inner cs with
    | (p, ')' :: rest) => some (p, rest)
    | _ => none
  | '[' :: cs => charClass cs
  | '.' :: rest => some (any, rest)
  | '^' :: rest => some (.textStart, rest)
  | '$' :: rest => some (.textEnd, rest)
  | '\\' :: c :: rest => if isMeta c then some (single c, rest) else none
  | c :: rest =>
    if c == '*' || c == '+' || c == '?' || c == '\x7b' || c == '\\' then none
    else some (single c, rest)
  | [] => none

/-- Reads alternatives up to the end of the group or text.  `p` is what the present
alternative consists of so far. -/
def alternatives : Nat → Pattern → List Char → Option (Pattern × List Char)
  | 0, _, _ => none
  | fuel + 1, p, cs =>
    match cs with
    | [] => some (p, [])
    | ')' :: _ => some (p, cs)
    | '|' :: rest => do
      let (q, rest) ← alternatives fuel .empty rest
      return (.alt p q, rest)
    | cs => do
      let (q, rest) ← item (alternatives fuel .empty) cs
      let (q, rest) ← repetitions (rest.length + 1) q rest
      alternatives fuel (.seq p q) rest

def parse? (text : String) : Option Pattern :=
  match alternatives (text.toList.length + 1) .empty text.toList with
  | some (p, []) => some p
  | _ => none

end Pattern

end Laconic
