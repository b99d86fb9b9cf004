import Laconic.Grammar.State

/-!
# The grammar, its property names and patterns

The rules of the grammar refer to each other in circles.  `Grammar` holds the
rules that close the circles, for use after at least one token has been taken;
every other rule is a function of it.  So a text with `n` tokens needs at most
`n + 1` levels of grammar, each built from the one below.

A pattern is read as such where something is declared.  Where it cannot be told
from an expression at first, it is read as one and converted (`Expr.toPattern`).
-/

namespace Laconic

/-- The rules that others refer to in circles. -/
structure Grammar where
  /-- A statement or declaration. -/
  item : Parse Stmt
  statement : Parse Stmt
  /-- An expression without commas; the flag forbids `in` as an operator. -/
  assign : Bool → Parse Expr
  /-- Operands joined by operators that bind tighter than a precedence. -/
  binary : Nat → Bool → Parse Expr
  unary : Parse Expr
  leftHand : Parse Expr
  /-- A `new` expression; the flag marks it free of effects. -/
  newExpr : Bool → Parse Expr
  /-- What a declaration declares. -/
  bindingTarget : Parse Pat

/-- The grammar that has run out of levels. -/
def Grammar.exhausted : Grammar :=
  { item := tooDeep, statement := tooDeep, assign := fun _ => tooDeep
    binary := fun _ _ => tooDeep, unary := tooDeep, leftHand := tooDeep
    newExpr := fun _ => tooDeep, bindingTarget := tooDeep }
where
  tooDeep {α : Type} : Parse α := do Parse.fail .tooDeep (← Parse.start)

/-! ## From expressions to patterns -/

namespace Expr

/-- Why an expression is no pattern, and where. -/
inductive PatternFault where
  | badTarget (pos : Position)
  | restElementNotLast (pos : Position)
  | restParamNotLast (pos : Position)

mutual

/-- Reads an expression as a pattern.  Where something is declared, only names
can be targets; else properties too. -/
def toPattern (strict declares : Bool) : Expr → Except PatternFault Pat
  | .ident id =>
    if strict && Parse.isRestricted id.name then .error (.badTarget id.loc.start)
    else .ok (.ident id)
  | .member loc optional o property =>
    if declares || optional then .error (.badTarget loc.start)
    else .ok (.expr (.member loc optional o property))
  | .array loc elements => return .array loc (← elementsToPatterns strict declares elements)
  | .object loc properties =>
    return .object loc (← propertiesToPatterns strict declares loc.start properties)
  | .assign loc .plain (.expr e) value =>
    return .assign loc (← toPattern strict declares e) value
  | .assign loc .plain p value => .ok (.assign loc p value)
  | e => .error (.badTarget e.loc.start)

def elementsToPatterns (strict declares : Bool) :
    List (Option Expr) → Except PatternFault (List (Option Pat))
  | [] => .ok []
  | none :: rest => return none :: (← elementsToPatterns strict declares rest)
  | some (.spread loc e) :: rest =>
    if rest.isEmpty then return [some (.rest loc (← toPattern strict declares e))]
    else .error (.restElementNotLast loc.start)
  | some e :: rest => do
    let p ← toPattern strict declares e
    return some p :: (← elementsToPatterns strict declares rest)

/-- Reads the properties of an object that starts at `start` as those of a
pattern. -/
def propertiesToPatterns (strict declares : Bool) (start : Position) :
    List Property → Except PatternFault (List PatProperty)
  | [] => .ok []
  | .spread loc e :: rest =>
    if rest.isEmpty then return [.rest loc (← toPattern strict declares e)]
    else .error (.restElementNotLast loc.start)
  | .value loc key e :: rest => do
    let p ← toPattern strict declares e
    return .keyValue loc key p :: (← propertiesToPatterns strict declares start rest)
  | _ :: _ => .error (.badTarget start)

end

def argumentsToParams (strict : Bool) : List Expr → Except PatternFault (List Pat)
  | [] => .ok []
  | .spread loc e :: rest =>
    if rest.isEmpty then return [.rest loc (← toPattern strict true e)]
    else .error (.restParamNotLast loc.start)
  | e :: rest => do
    let p ← toPattern strict true e
    return p :: (← argumentsToParams strict rest)

end Expr

namespace Parse

/-- Goes on with a converted pattern, or fails. -/
def ofPattern {α : Type} (result : Except Expr.PatternFault α) : Parse α :=
  match result with
  | .ok a => return a
  | .error (.badTarget pos) => fail .badPatternTarget pos
  | .error (.restElementNotLast pos) => fail .restElementNotLast pos
  | .error (.restParamNotLast pos) => fail .restParamNotLast pos

/-! ## Property names -/

/-- The property name of a whole number of any size: its decimal digits, if
the value fits into 128 bits. -/
def bigintKey (digits : String) : String :=
  let radix? : Option Nat :=
    match digits.toList with
    | '0' :: c :: _ =>
      if c == 'x' || c == 'X' then some 16
      else if c == 'o' || c == 'O' then some 8
      else if c == 'b' || c == 'B' then some 2
      else none
    | _ => none
  match radix? with
  | none => digits
  | some radix =>
    let body := digits.toList.drop 2
    let value? := body.foldlM (fun n c => (Number.digitValue? radix c).map (n * radix + ·)) 0
    match value? with
    | some n => if !body.isEmpty && n < twoPow 128 then Nat.repr n else digits
    | none => digits

def propName (g : Grammar) : Parse PropName := do
  match (← get).token.lexeme with
  | .string .. => return .str (← string)
  | .number value => return .num (← bump).span value
  | .bigint digits => return .str ⟨(← bump).span, bigintKey digits, none⟩
  | .punct .leftBracket =>
    discard bump
    let e ← g.assign false
    expectPunct .rightBracket
    return .computed e
  | .privateName name => return .privateName (← bump).span name
  | _ => return .ident (← identName)

/-! ## Declared patterns -/

/-- Reads a default value after a pattern, if there is one. -/
def bindingDefault (g : Grammar) (start : Position) (target : Pat) : Parse Pat := do
  if ← eatPunct .equal then
    let value ← g.assign false
    return .assign (← spanFrom start) target value
  return target

def restPattern (g : Grammar) : Parse Pat := do
  let start ← start
  expectPunct .dotDotDot
  let p ← g.bindingTarget
  return .rest (← spanFrom start) p

/-- Reads the elements of an array pattern after its bracket. -/
def arrayBinding (g : Grammar) (element : Parse Pat) : Parse Pat := do
  let start ← start
  discard bump
  let elements ← repeatUntil (fun acc => do
    if ← isPunct .rightBracket then return .inr acc
    if ← eatPunct .comma then return .inl (none :: acc)
    if ← isPunct .dotDotDot then return .inr (some (← restPattern g) :: acc)
    let p ← element
    if !(← isPunct .rightBracket) then expectPunct .comma
    return .inl (some p :: acc)) []
  expectPunct .rightBracket
  return .array (← spanFrom start) elements.reverse

/-- Reads the value of a property of an object pattern after its name.  A name
alone declares a variable of that name. -/
def bindingValue (g : Grammar) (element : Parse Pat) (start : Position) (shorthand : Bool)
    (key : PropName) : Parse Pat := do
  if ← eatPunct .colon then element
  else
    match key with
    | .ident id =>
      if !shorthand then fail (.unexpectedKeyword id.name) start
      bindingDefault g start (.ident ⟨id.loc, id.name, none⟩)
    | _ => unexpected

def objectBinding (g : Grammar) (element : Parse Pat) : Parse Pat := do
  let start ← start
  discard bump
  let properties ← repeatUntil (fun acc => do
    if ← isPunct .rightBrace then return .inr acc
    let pstart ← Parse.start
    if ← eatPunct .dotDotDot then
      let id ← bindingIdent
      return .inr (.rest (← spanFrom pstart) (.ident id) :: acc)
    let shorthand ← isName
    let key ← propName g
    let value ← bindingValue g element pstart shorthand key
    let property := .keyValue (← spanFrom pstart) key value
    if !(← isPunct .rightBrace) then expectPunct .comma
    return .inl (property :: acc)) []
  discard bump
  return .object (← spanFrom start) properties.reverse

/-- Reads a pattern with a default value, if there is one. -/
def bindingElementWith (g : Grammar) (target : Parse Pat) : Parse Pat := do
  let start ← start
  let p ← target
  bindingDefault g start p

def bindingTarget (g : Grammar) : Parse Pat := do
  let element := bindingElementWith g g.bindingTarget
  if ← isPunct .leftBracket then arrayBinding g element
  else if ← isPunct .leftBrace then objectBinding g element
  else return .ident (← bindingIdent)

/-- Reads a parameter or a part of a pattern. -/
def bindingElement (g : Grammar) : Parse Pat := bindingElementWith g (bindingTarget g)

end Parse

end Laconic
