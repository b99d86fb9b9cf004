import Laconic.Grammar.Function

/-!
# Expressions

From the innermost rule outwards: literals and names, member accesses and calls,
unary operators, binary operators by their precedence, choices, assignments,
sequences.

The head of an arrow function is read as an expression in parentheses and
converted once the arrow is seen.  An arrow function is not an operand: what
follows it is not read as part of the same expression.
-/

namespace Laconic.Parse

/-- Reads expressions with commas between them, given how one of them is
read. -/
def commaSeparated (assign : Parse Expr) : Parse Expr := do
  let first ← assign
  if !(← isPunct .comma) then return first
  let rest ← manyWhile (eatPunct .comma) assign
  return .mkSequence (first :: rest)

/-- Reads an expression after a token has been taken. -/
def innerExpression (g : Grammar) : Parse Expr := commaSeparated (g.assign false)

/-! ## Arguments and templates -/

/-- Reads an expression, perhaps after `...`. -/
def spreadable (g : Grammar) : Parse Expr := do
  if ← isPunct .dotDotDot then
    let start ← start
    discard bump
    let e ← g.assign false
    return .spread (← spanFrom start) e
  g.assign false

/-- Reads items up to a closing punctuator, with commas between them, and takes
the closing one. -/
def listUntil {α : Type} (close : Punct) (item : Parse α) : Parse (List α) := do
  let items ← repeatUntil (fun acc => do
    if ← isPunct close then return .inr acc
    let a ← item
    if !(← isPunct close) then expectPunct .comma
    return .inl (a :: acc)) []
  discard bump
  return items.reverse

def arguments (g : Grammar) : Parse (List Expr) := do
  expectPunct .leftParen
  listUntil .rightParen (spreadable g)

def template (g : Grammar) (tagged : Bool) : Parse (Span × List Quasi × List Expr) := do
  let start ← start
  let (quasis, es) ← repeatUntil (fun (quasis, es) => do
    let t := (← get).token
    match t.lexeme with
    | .template part cooked raw =>
      discard bump
      if !tagged && cooked.isNone then fail .badTemplateEscape t.span.start
      let quasis := ⟨t.span, raw, cooked⟩ :: quasis
      if part == .whole || part == .tail then return .inr (quasis, es)
      return .inl (quasis, (← innerExpression g) :: es)
    | _ => unexpected) (([], []) : List Quasi × List Expr)
  return (← spanFrom start, quasis.reverse, es.reverse)

/-! ## Literals -/

def arrayLiteral (g : Grammar) : Parse Expr := do
  let start ← start
  discard bump
  let elements ← repeatUntil (fun acc => do
    if ← isPunct .rightBracket then return .inr acc
    if ← eatPunct .comma then return .inl (none :: acc)
    let e ← spreadable g
    if !(← isPunct .rightBracket) then expectPunct .comma
    return .inl (some e :: acc)) []
  discard bump
  return .array (← spanFrom start) elements.reverse

/-- Reads what follows the name of a property that is neither a method nor an
accessor.  A name alone refers to a variable of that name; a default value after
it makes sense only in a pattern. -/
def propertyValue (g : Grammar) (start : Position) (shorthand : Bool) (key : PropName) :
    Parse Expr := do
  if ← eatPunct .colon then g.assign false
  else
    match key with
    | .ident id =>
      if !shorthand then fail (.unexpectedText id.name) id.loc.start
      let reference : Expr := .ident ⟨id.loc, id.name, none⟩
      if ← eatPunct .equal then
        let value ← g.assign false
        return .assign (← spanFrom start) .plain (.expr reference) value
      return reference
    | _ => unexpected

def objectProperty (g : Grammar) : Parse Property := do
  let start ← start
  if ← eatPunct .dotDotDot then
    let e ← g.assign false
    return .spread (← spanFrom start) e
  let isAsync ← asyncModifier
  let isGenerator ← eatPunct .star
  let accessor ← if isAsync || isGenerator then pure none else accessorModifier
  let shorthand ← isName
  let key ← propName g
  if let .privateName loc _ := key then fail .unexpectedPrivateName loc.start
  match accessor with
  | some kind =>
    let f ← functionRest g (← Parse.start) none false false
    let loc ← spanFrom start
    return if kind == .get then .getter loc key f else .setter loc key f
  | none =>
    if isAsync || isGenerator || (← isPunct .leftParen) then
      let f ← functionRest g (← Parse.start) none isAsync isGenerator
      return .method (← spanFrom start) key f
    let value ← propertyValue g start shorthand key
    return .value (← spanFrom start) key value

def objectLiteral (g : Grammar) : Parse Expr := do
  let start ← start
  discard bump
  let properties ← listUntil .rightBrace (objectProperty g)
  return .object (← spanFrom start) properties

/-! ## Parentheses -/

/-- What has been read inside parentheses, the items last first. -/
structure Parenthesized where
  items : List Expr
  rest : Option Pat
  trailingComma : Option Position

def parenthesized (g : Grammar) : Parse Parenthesized :=
  repeatUntil (fun (p : Parenthesized) => do
    if ← isPunct .rightParen then return .inr p
    if ← isPunct .dotDotDot then return .inr { p with rest := some (← restPattern g) }
    let p := { p with items := (← g.assign false) :: p.items }
    if ← isPunct .rightParen then return .inl p
    let comma ← expect (.punct .comma)
    if ← isPunct .rightParen then
      return .inl { p with trailingComma := some comma.span.start }
    return .inl p) ⟨[], none, none⟩

def arrowFollows : Parse Bool := do
  return (← isPunct .arrow) && !(← afterNewline)

def parenOrArrow (g : Grammar) : Parse Expr := do
  let start ← start
  discard bump
  let p ← parenthesized g
  let items := p.items.reverse
  let close ← expect (.punct .rightParen)
  if ← arrowFollows then
    let ps ← ofPattern (Expr.argumentsToParams (← isStrict) items)
    arrowRest g start false (ps ++ p.rest.toList) false
  else
    if items.isEmpty then fail (.unexpectedText ")") close.span.start
    if let some r := p.rest then fail (.unexpectedText "...") r.loc.start
    if let some pos := p.trailingComma then fail (.unexpectedText ",") pos
    return .mkSequence items

def asyncCallOrArrow (g : Grammar) : Parse Expr := do
  let start ← start
  let callee ← ident
  let args ← arguments g
  if ← arrowFollows then
    let ps ← ofPattern (Expr.argumentsToParams (← isStrict) args)
    arrowRest g start true ps false
  else return .call (← spanFrom start) false false (.ident callee) args

/-! ## Operands -/

/-- Reads a slash as the start of a regular expression. -/
def slashAsRegexp : Parse Unit := do
  if (← isPunct .slash) || (← isPunct .slashEqual) then
    let t ← onScanner (Scanning.rescanRegexp (← get).token)
    modify ({ · with token := t })

/-- Reads a name, or what starts with `async`. -/
def namePrimary (g : Grammar) : Parse Expr := do
  if ← isWord .async then
    if ← asyncFunctionFollows then return ← functionExpr g true
    if (← peek?).any fun t => t.kind == .punct .leftParen && !t.afterNewline then
      return ← asyncCallOrArrow g
  return .ident (← ident)

/-- Reads a literal, a name, or something in brackets. -/
def primary (g : Grammar) : Parse Expr := do
  slashAsRegexp
  match (← get).token.lexeme with
  | .word .this => return .this (← bump).span
  | .word .null => return .null (← bump).span
  | .word .trueLit => return .bool (← bump).span true
  | .word .falseLit => return .bool (← bump).span false
  | .number value => return .num (← bump).span value
  | .bigint digits => return .bigint (← bump).span digits
  | .string .. => return .str (stringLit (← bump))
  | .regexp pattern flags => return .regexp (← bump).span pattern flags
  | .template part .. =>
    if part == .whole || part == .head then
      let (loc, quasis, es) ← template g false
      return .template loc quasis es
    unexpected
  | .punct .leftParen => parenOrArrow g
  | .punct .leftBracket => arrayLiteral g
  | .punct .leftBrace => objectLiteral g
  | .word .function => functionExpr g false
  | .word .class => return .class (← classDef g (← start) false)
  | _ => namePrimary g

/-! ## Accesses and calls -/

/-- Reads the name of a property after a point. -/
def memberName : Parse PropName := do
  match (← get).token.lexeme with
  | .privateName name => return .privateName (← bump).span name
  | _ => return .ident (← identName)

def computedName (g : Grammar) : Parse PropName := do
  discard bump
  let e ← innerExpression g
  expectPunct .rightBracket
  return .computed e

/-- An expression with some accesses and calls after it. -/
structure CallTail where
  expr : Expr
  /-- Whether one of them was an optional link. -/
  inChain : Bool
  /-- Whether the next call is marked free of effects. -/
  pure : Bool

/-- Reads one access, call or template after an expression; `none` if there is
none. -/
def callLink (g : Grammar) (start : Position) (calls : Bool) (tail : CallTail) :
    Parse (Option CallTail) := do
  match (← get).token.lexeme with
  | .punct .dot =>
    discard bump
    let name ← memberName
    return some { tail with expr := .member (← spanFrom start) false tail.expr name }
  | .punct .questionDot =>
    if !calls then return none
    discard bump
    if ← isPunct .leftParen then
      let args ← arguments g
      let e := .call (← spanFrom start) true tail.pure tail.expr args
      return some ⟨e, true, false⟩
    let name ← if ← isPunct .leftBracket then computedName g else memberName
    return some { tail with
      expr := .member (← spanFrom start) true tail.expr name, inChain := true }
  | .punct .leftBracket =>
    let name ← computedName g
    return some { tail with expr := .member (← spanFrom start) false tail.expr name }
  | .punct .leftParen =>
    if !calls then return none
    let args ← arguments g
    return some { tail with
      expr := .call (← spanFrom start) false tail.pure tail.expr args, pure := false }
  | .template part .. =>
    if part == .middle || part == .tail then return none
    if tail.inChain then fail .taggedOptionalChain (← Parse.start)
    let (loc, quasis, es) ← template g true
    return some { tail with expr := .tagged (← spanFrom start) tail.expr loc quasis es }
  | _ => return none

/-- Reads the accesses, calls and templates after an expression. -/
def callTail (g : Grammar) (start : Position) (e : Expr) (calls pure : Bool) : Parse Expr := do
  let tail ← repeatUntil (fun tail => do
    match ← callLink g start calls tail with
    | some tail => return .inl tail
    | none => return .inr tail) (⟨e, false, pure⟩ : CallTail)
  if tail.inChain then return .chain (← spanFrom start) tail.expr
  return tail.expr

def isArrow : Expr → Bool
  | .arrow _ => true
  | _ => false

def newExpr (g : Grammar) (pure : Bool) : Parse Expr := do
  let start ← start
  discard bump
  if ← eatPunct .dot then
    expectWord .target
    return .metaProperty (← spanFrom start) .newTarget
  let calleeStart ← Parse.start
  if ← isWord .import then fail .newImport calleeStart
  let callee ← if ← isWord .new then g.newExpr false else primary g
  if isArrow callee then fail .badNewTarget calleeStart
  let callee ← callTail g calleeStart callee false false
  if ← isPunct .questionDot then fail .optionalChainInNew calleeStart
  let args ← if ← isPunct .leftParen then arguments g else Pure.pure []
  return .new (← spanFrom start) pure callee args

/-- Reads a dynamic import, or the module's own data. -/
def importExpr (g : Grammar) : Parse Expr := do
  let start ← start
  discard bump
  if ← eatPunct .dot then
    expectWord .metaName
    if !(← get).module then fail .metaOutsideModule start
    return .metaProperty (← spanFrom start) .importMeta
  expectPunct .leftParen
  let source ← g.assign false
  let options ← do
    if ← eatPunct .comma then
      if ← isPunct .rightParen then pure none
      else
        let e ← g.assign false
        discard (eatPunct .comma)
        pure (some e)
    else pure none
  expectPunct .rightParen
  return .importCall (← spanFrom start) source options

/-- Reads `super`, which must be followed by an access or call. -/
def superExpr : Parse Expr := do
  let t ← bump
  if (← isPunct .leftParen) || (← isPunct .dot) || (← isPunct .leftBracket) then
    return .super t.span
  fail .misplacedSuper t.span.start

/-- Whether a comment before the present token promises a call without
effects. -/
def pureMark : Parse Bool := return (← get).token.comments.any (·.isPureMark)

/-- Reads an operand with its accesses and calls. -/
def leftHand (g : Grammar) : Parse Expr := do
  let start ← start
  let pure ← pureMark
  let e ←
    if ← isWord .new then newExpr g pure
    else if ← isWord .super then superExpr
    else if ← isWord .import then importExpr g
    else primary g
  if isArrow e then return e
  callTail g start e true (pure && !(e matches .new ..))

/-! ## Operators -/

def unaryOp? : TokenKind → Option UnaryOp
  | .word .delete => some .delete
  | .word .void => some .void
  | .word .typeof => some .typeof
  | .punct .plus => some .plus
  | .punct .minus => some .minus
  | .punct .bang => some .not
  | .punct .tilde => some .bitNot
  | _ => none

def updateOp? : TokenKind → Option UpdateOp
  | .punct .plusPlus => some .increment
  | .punct .minusMinus => some .decrement
  | _ => none

/-- Whether an expression can be assigned. -/
def isSimpleTarget (strict : Bool) : Expr → Bool
  | .ident id => !(strict && isRestricted id.name)
  | .member _ optional _ _ => !optional
  | _ => false

/-- Reads an operand and an update operator after it. -/
def postfixExpr (g : Grammar) : Parse Expr := do
  let start ← start
  let e ← leftHand g
  match updateOp? (← kind) with
  | some op =>
    if (← afterNewline) || isArrow e then return e
    if !isSimpleTarget (← isStrict) e then fail .badUpdateTarget start
    discard bump
    return .update (← spanFrom start) op false e
  | none => return e

/-- Reads an operand with unary operators. -/
def unary (g : Grammar) : Parse Expr := do
  let start ← start
  match unaryOp? (← kind), updateOp? (← kind) with
  | some op, _ =>
    discard bump
    let e ← g.unary
    if op == .delete && (← isStrict) && (e matches .ident _) then fail .strictDelete start
    if ← isPunct .starStar then fail .unaryBeforePower (← Parse.start)
    return .unary (← spanFrom start) op e
  | none, some op =>
    discard bump
    let argStart ← Parse.start
    let e ← g.unary
    if !isSimpleTarget (← isStrict) e then fail .badUpdateTarget argStart
    return .update (← spanFrom start) op true e
  | none, none =>
    if (← isWord .await) && (← get).context.isAsync then
      discard bump
      let e ← g.unary
      return .await (← spanFrom start) e
    postfixExpr g

/-- An operator between two operands. -/
inductive InfixOp where
  | binary (op : BinaryOp)
  | logical (op : LogicalOp)

namespace InfixOp

def precedence : InfixOp → Nat
  | .binary op => op.precedence
  | .logical op => op.precedence

/-- The least precedence that the right operand must exceed.  Only powers group
to the right. -/
def rightBound : InfixOp → Nat
  | .binary .exp => BinaryOp.exp.precedence - 1
  | op => op.precedence

/-- The operation on two operands. -/
def apply (op : InfixOp) (loc : Span) (left right : Expr) : Expr :=
  match op with
  | .binary op => .binary loc op left right
  | .logical op => .logical loc op left right

def ofKind? (noIn : Bool) : TokenKind → Option InfixOp
  | .punct p =>
    match p with
    | .ampersandAmpersand => some (.logical .and)
    | .pipePipe => some (.logical .or)
    | .questionQuestion => some (.logical .nullish)
    | .equalEqual => some (.binary .eq)
    | .bangEqual => some (.binary .notEq)
    | .equalEqualEqual => some (.binary .strictEq)
    | .bangEqualEqual => some (.binary .strictNotEq)
    | .less => some (.binary .lt)
    | .lessEqual => some (.binary .ltEq)
    | .greater => some (.binary .gt)
    | .greaterEqual => some (.binary .gtEq)
    | .lessLess => some (.binary .shl)
    | .greaterGreater => some (.binary .shr)
    | .greaterGreaterGreater => some (.binary .ushr)
    | .plus => some (.binary .add)
    | .minus => some (.binary .sub)
    | .star => some (.binary .mul)
    | .slash => some (.binary .div)
    | .percent => some (.binary .rem)
    | .starStar => some (.binary .exp)
    | .pipe => some (.binary .bitOr)
    | .caret => some (.binary .bitXor)
    | .ampersand => some (.binary .bitAnd)
    | _ => none
  | .word .in => if noIn then none else some (.binary .in)
  | .word .instanceof => some (.binary .instanceof)
  | _ => none

end InfixOp

/-- Reads what looks like a regular expression as a division. -/
def regexpAsSlash : Parse Unit := do
  if ← isAt .regexp then
    let t ← onScanner (Scanning.rescanDivision (← get).token)
    modify ({ · with token := t })

/-- Reads operands joined by operators that bind tighter than `least`. -/
def binary (g : Grammar) (least : Nat) (noIn : Bool) : Parse Expr := do
  let start ← start
  let first ← unary g
  if isArrow first then return first
  repeatUntil (fun left => do
    regexpAsSlash
    match InfixOp.ofKind? noIn (← kind) with
    | some op =>
      if op.precedence ≤ least then return .inr left
      discard bump
      let right ← g.binary op.rightBound noIn
      return .inl (op.apply (← spanFrom start) left right)
    | none => return .inr left) first

def conditional (g : Grammar) (noIn : Bool) : Parse Expr := do
  let start ← start
  let test ← binary g 0 noIn
  if !(← isPunct .question) || isArrow test then return test
  discard bump
  let consequent ← g.assign false
  expectPunct .colon
  let alternate ← g.assign noIn
  return .conditional (← spanFrom start) test consequent alternate

/-! ## Assignments -/

def assignOp? : TokenKind → Option AssignOp
  | .punct p =>
    match p with
    | .equal => some .plain
    | .plusEqual => some (.compound .add)
    | .minusEqual => some (.compound .sub)
    | .starEqual => some (.compound .mul)
    | .slashEqual => some (.compound .div)
    | .percentEqual => some (.compound .rem)
    | .starStarEqual => some (.compound .exp)
    | .lessLessEqual => some (.compound .shl)
    | .greaterGreaterEqual => some (.compound .shr)
    | .greaterGreaterGreaterEqual => some (.compound .ushr)
    | .pipeEqual => some (.compound .bitOr)
    | .caretEqual => some (.compound .bitXor)
    | .ampersandEqual => some (.compound .bitAnd)
    | .ampersandAmpersandEqual => some (.logical .and)
    | .pipePipeEqual => some (.logical .or)
    | .questionQuestionEqual => some (.logical .nullish)
    | _ => none
  | _ => none

def endsYield (noIn : Bool) (t : Token) : Bool :=
  t.afterNewline ||
    match t.kind with
    | .punct p =>
      p == .rightParen || p == .rightBracket || p == .rightBrace || p == .comma || p == .semicolon
        || p == .colon
    | .template part => part == .middle || part == .tail
    | .endOfInput => true
    | .word .in => noIn
    | _ => false

def yieldExpr (g : Grammar) (noIn : Bool) : Parse Expr := do
  let start ← start
  discard bump
  if endsYield noIn (← get).token then return .yield (← spanFrom start) false none
  let delegate ← eatPunct .star
  if !delegate && (← isPunct .question) then return .yield (← spanFrom start) false none
  let e ← g.assign noIn
  return .yield (← spanFrom start) delegate (some e)

def asyncArrowFollows : Parse Bool := do
  match ← peekTwo? with
  | some (a, b) =>
    let isParam :=
      match a.kind with
      | .identifier => true
      | .word w => w.isContextual && w != .await
      | _ => false
    return isParam && !a.afterNewline && b.kind == .punct .arrow && !b.afterNewline
  | none => return false

/-- Reads an arrow function that starts with the name of its only parameter;
`none` if there is none. -/
def nameArrow (g : Grammar) (noIn : Bool) : Parse (Option Expr) := do
  let start ← start
  if ← isName then
    if (← peek?).any fun t => t.kind == .punct .arrow && !t.afterNewline then
      let id ← bindingIdent
      return some (← arrowRest g start false [.ident id] noIn)
  if ← isWord .async then
    if ← asyncArrowFollows then
      discard bump
      let id ← inContext ({ · with isAsync := true }) bindingIdent
      return some (← arrowRest g start true [.ident id] noIn)
  return none

def assignTarget (start : Position) (op : AssignOp) (left : Expr) : Parse Pat := do
  let strict ← isStrict
  let isPattern := op == .plain && match left with | .array .. | .object .. => true | _ => false
  if isPattern then ofPattern (left.toPattern strict false)
  else if isSimpleTarget strict left then return .expr left
  else fail .badAssignTarget start

def assign (g : Grammar) (noIn : Bool) : Parse Expr := do
  let start ← start
  if (← isWord .yield) && (← get).context.isGenerator then return ← yieldExpr g noIn
  if let some e ← nameArrow g noIn then return e
  let left ← conditional g noIn
  if isArrow left then return left
  match assignOp? (← kind) with
  | some op =>
    let target ← assignTarget start op left
    discard bump
    let value ← g.assign noIn
    return .assign (← spanFrom start) op target value
  | none => return left

def expression (g : Grammar) (noIn : Bool) : Parse Expr := commaSeparated (assign g noIn)

end Laconic.Parse
