import Laconic.Grammar.Binding

/-!
# Functions and classes

Bodies with directives at their head, parameters, functions and classes.  A
directive `"use strict"` makes the rest of its body strict; a class is strict as
a whole, its heritage included.
-/

namespace Laconic.Parse

/-! ## Bodies -/

def sourceText (span : Span) : Parse String := do
  let chars := (← get).scanner.chars
  return String.ofList
    (takeBytes (span.stop.offset - span.start.offset) (dropBytes span.start.offset chars))

/-- Whether a statement consists of nothing but the string at a place. -/
def isStringAt (span : Span) : Stmt → Bool
  | .expr loc (.str lit) => lit.loc == span && loc.start == span.start
  | _ => false

/-- Reads statements up to a token of kind `stop`.  Strings that stand alone
at the head are directives. -/
def statementList (stop : TokenKind) (item : Parse Stmt) : Parse (List Stmt) :=
  repeatUntil (fun (acc, head) => do
    if ← isAt stop then return .inr acc.reverse
    if ← isAt .endOfInput then unexpected
    if head && (← isAt .string) then
      let span := (← get).token.span
      let s ← item
      if isStringAt span s then
        let raw ← sourceText span
        if directiveValue raw == "use strict" then setStrict true
        return .inl (.directive s.loc raw :: acc, true)
      return .inl (s :: acc, false)
    return .inl ((← item) :: acc, false)) (([], true) : List Stmt × Bool)

def block (g : Grammar) : Parse Block := do
  let start ← start
  expectPunct .leftBrace
  let body ← manyWhile (do
    if ← isPunct .rightBrace then return false
    if ← isAt .endOfInput then unexpected
    return true) g.item
  discard bump
  return ⟨← spanFrom start, body⟩

def functionBody (g : Grammar) : Parse Block := do
  let start ← start
  expectPunct .leftBrace
  let body ← statementList (.punct .rightBrace) g.item
  discard bump
  return ⟨← spanFrom start, body⟩

/-! ## Functions -/

def params (g : Grammar) : Parse (List Pat) := do
  expectPunct .leftParen
  let ps ← repeatUntil (fun acc => do
    if ← isPunct .rightParen then return .inr acc
    if ← isPunct .dotDotDot then
      let p ← restPattern g
      if !(← isPunct .rightParen) then fail .restParamNotLast (← start)
      return .inr (p :: acc)
    let p ← bindingElement g
    if !(← isPunct .rightParen) then expectPunct .comma
    return .inl (p :: acc)) []
  discard bump
  return ps.reverse

def functionRest (g : Grammar) (start : Position) (id : Option Ident)
    (isAsync isGenerator : Bool) : Parse Func := do
  let (ps, body) ← inFunction isAsync isGenerator do
    let ps ← params g
    let body ← functionBody g
    return (ps, body)
  return ⟨← spanFrom start, id, isAsync, isGenerator, ps, body⟩

def functionDecl (g : Grammar) (isAsync nameOptional : Bool) : Parse Func := do
  let start ← start
  if isAsync then discard bump
  expectWord .function
  let isGenerator ← eatPunct .star
  let id ←
    if nameOptional && (← isPunct .leftParen) then pure none
    else pure (some (← bindingIdent))
  functionRest g start id isAsync isGenerator

/-- Reads a function expression.  Its name is read in its own context. -/
def functionExpr (g : Grammar) (isAsync : Bool) : Parse Expr := do
  let start ← start
  if isAsync then discard bump
  expectWord .function
  let isGenerator ← eatPunct .star
  let id ←
    if ← isPunct .leftParen then pure none
    else
      some <$> inContext ({ · with isAsync := isAsync, isGenerator := isGenerator }) bindingIdent
  return .function (← functionRest g start id isAsync isGenerator)

def arrowRest (g : Grammar) (start : Position) (isAsync : Bool) (ps : List Pat) (noIn : Bool) :
    Parse Expr := do
  if ← afterNewline then unexpected
  expectPunct .arrow
  let body ← inFunction isAsync false do
    if ← isPunct .leftBrace then return ArrowBody.block (← functionBody g)
    else return ArrowBody.expr (← g.assign noIn)
  return .arrow ⟨← spanFrom start, isAsync, ps, body⟩

/-! ## Classes -/

def asyncModifier : Parse Bool := do
  if ← isWord .async then
    if !(← modifierIsName) && !((← peek?).any (·.afterNewline)) then
      discard bump
      return true
  return false

/-- Takes `get` or `set` if it is a modifier here. -/
def accessorModifier : Parse (Option MethodKind) := do
  if (← isWord .get) || (← isWord .set) then
    if !(← modifierIsName) then
      let t ← bump
      return some (if t.kind == .word .get then .get else .set)
  return none

def staticModifier : Parse Bool := do
  if ← isWord .static then
    if !(← modifierIsName) then
      discard bump
      return true
  return false

def isConstructorName : PropName → Bool
  | .ident id => id.name == "constructor"
  | .str lit => lit.value == "constructor"
  | _ => false

def classMember (g : Grammar) : Parse Member := do
  let start ← start
  let isStatic ← staticModifier
  if isStatic && (← isPunct .leftBrace) then
    let b ← inFunction false false do
      modifyContext ({ · with inFunction := false })
      block g
    return .staticBlock (← spanFrom start) b.body
  let isAsync ← asyncModifier
  let isGenerator ← eatPunct .star
  let accessor ← if isAsync || isGenerator then pure none else accessorModifier
  let special := accessor.isSome || isAsync || isGenerator
  let key ← propName g
  if ← isPunct .leftParen then
    let isConstructor := isConstructorName key && !isStatic
    if isConstructor && special then fail .specialConstructor start
    let kind := if isConstructor then .constructor else accessor.getD .method
    let f ← functionRest g (← Parse.start) none isAsync isGenerator
    return .method (← spanFrom start) isStatic kind key f
  if special then unexpected
  let value ←
    if ← eatPunct .equal then some <$> inFunction false false (g.assign false) else pure none
  semicolon
  return .property (← spanFrom start) isStatic key value

/-- Reads a class after its first word. -/
def classTail (g : Grammar) (start : Position) (nameRequired : Bool) : Parse ClassDef := do
  let id ←
    if ← isName then some <$> bindingIdent
    else if nameRequired then unexpected
    else pure none
  let superClass ← if ← eatWord .extends then some <$> g.leftHand else pure none
  expectPunct .leftBrace
  let members ← repeatUntil (fun acc => do
    if ← isPunct .rightBrace then return .inr acc
    if ← eatPunct .semicolon then return .inl acc
    return .inl ((← classMember g) :: acc)) []
  discard bump
  return ⟨← spanFrom start, id, superClass, members.reverse⟩

/-- Reads a class, which is strict code.  Its last token is read again after
it, also if the class is faulty. -/
def classDef (g : Grammar) (start : Position) (nameRequired : Bool) : Parse ClassDef := do
  let outer ← isStrict
  discard bump
  setStrict true
  let result ← observing (classTail g start nameRequired)
  setStrict outer
  match result with
  | .ok c => return c
  | .error e => throw e
where
  /-- Runs an operation and gives its failure as a value. -/
  observing {α : Type} (act : Parse α) : Parse (Except Error α) := fun s =>
    match act s with
    | .ok a s => .ok (.ok a) s
    | .error e s => .ok (.error e) s

end Laconic.Parse
