import Laconic.Grammar.Expression

/-!
# Statements

A jump is checked where it is read: `break` and `continue` need a loop or
`switch` around them in the same function, and their labels must be in scope.
-/

namespace Laconic.Parse

def parenExpression (g : Grammar) : Parse Expr := do
  expectPunct .leftParen
  let e ← innerExpression g
  expectPunct .rightParen
  return e

/-! ## Declarations of variables -/

def isLetName : Pat → Bool
  | .ident id => id.name == "let"
  | _ => false

/-- Reads a declaration of variables, from its first word on. -/
def varDecl (g : Grammar) (kind : VarKind) (noIn : Bool) : Parse VarDecl := do
  let start ← start
  discard bump
  let declarators ← repeatUntil (fun acc => do
    let dstart ← Parse.start
    let target ← bindingTarget g
    if kind != .var && isLetName target then fail .letAsLexicalName dstart
    let init ← if ← eatPunct .equal then some <$> g.assign noIn else pure none
    let acc := ⟨← spanFrom dstart, target, init⟩ :: acc
    if ← eatPunct .comma then return .inl acc
    return .inr acc) []
  return ⟨← spanFrom start, kind, declarators.reverse⟩

/-- The first variable of a declaration that lacks a value, and what is wrong
with that. -/
def missingInit? (kind : VarKind) (d : Declarator) : Option SyntaxFault :=
  if d.init.isSome then none
  else if kind == .const then some .missingConstInit
  else if d.target matches .ident _ then none
  else some .missingPatternInit

/-- Checks that the variables of a declaration have the values they need. -/
def checkInits (d : VarDecl) : Parse Unit :=
  d.declarators.forM fun x =>
    match missingInit? d.kind x with
    | some fault => fail fault x.loc.start
    | none => return ()

def varStatement (g : Grammar) (kind : VarKind) : Parse Stmt := do
  let start ← start
  let d ← varDecl g kind false
  checkInits d
  semicolon
  return .varDecl { d with loc := ← spanFrom start }

/-! ## Loops -/

def loopBody (g : Grammar) : Parse Stmt :=
  inContext (fun c => { c with loops := c.loops + 1 }) g.statement

/-- Reads a loop from the test in its head on. -/
def forRest (g : Grammar) (start : Position) (init : ForInit) : Parse Stmt := do
  let test ← if ← isPunct .semicolon then pure none else some <$> innerExpression g
  expectPunct .semicolon
  let update ← if ← isPunct .rightParen then pure none else some <$> innerExpression g
  expectPunct .rightParen
  let body ← loopBody g
  return .for (← spanFrom start) init test update body

/-- Reads a loop over an object from `in` or `of` on. -/
def forOverRest (g : Grammar) (start : Position) (isAwait : Bool) (target : ForTarget) :
    Parse Stmt := do
  let isOf := (← bump).kind == .word .of
  if isAwait && !isOf then fail .awaitWithoutOf start
  let object ← if isOf then g.assign false else innerExpression g
  expectPunct .rightParen
  let body ← loopBody g
  let loc ← spanFrom start
  return if isOf then .forOf loc isAwait target object body else .forIn loc target object body

def isOver : Parse Bool := return (← isWord .of) || (← isWord .in)

def declKind? : Parse (Option VarKind) := do
  match ← kind with
  | .word .var => return some .var
  | .word .const => return some .const
  | .word .let => return if ← letDeclares then some .let else none
  | _ => return none

/-- Whether the only variable of a loop over an object may have a value: in
sloppy code, if it is a plain `var` before `in`. -/
def legacyInit (kind : VarKind) (d : Declarator) : Parse Bool := do
  return (← isWord .in) && kind == .var && !(← isStrict) && (d.target matches .ident _)

def forDecl (g : Grammar) (start : Position) (isAwait : Bool) (kind : VarKind) : Parse Stmt := do
  let d ← varDecl g kind true
  match d.declarators with
  | [x] =>
    if ← isOver then
      if x.init.isSome && !(← legacyInit kind x) then fail .loopVariableInit d.loc.start
      return ← forOverRest g start isAwait (.decl d)
  | _ => pure ()
  if isAwait then unexpected
  checkInits d
  expectPunct .semicolon
  forRest g start (.decl d)

def forExpr (g : Grammar) (start : Position) (isAwait : Bool) : Parse Stmt := do
  let initStart ← Parse.start
  let e ← commaSeparated (g.assign true)
  if ← isOver then
    match e.toPattern (← isStrict) false with
    | .ok p => forOverRest g start isAwait (.pat p)
    | .error _ => fail .badForTarget initStart
  else
    if isAwait then unexpected
    expectPunct .semicolon
    forRest g start (.expr e)

def forStatement (g : Grammar) : Parse Stmt := do
  let start ← start
  discard bump
  let isAwait ← if (← get).context.isAsync then eatWord .await else pure false
  expectPunct .leftParen
  if ← eatPunct .semicolon then
    if isAwait then unexpected
    forRest g start .none
  else
    match ← declKind? with
    | some kind => forDecl g start isAwait kind
    | none => forExpr g start isAwait

def whileStatement (g : Grammar) : Parse Stmt := do
  let start ← start
  discard bump
  let test ← parenExpression g
  let body ← loopBody g
  return .while (← spanFrom start) test body

/-- Reads a `do` loop.  No semicolon is needed after it. -/
def doWhileStatement (g : Grammar) : Parse Stmt := do
  let start ← start
  discard bump
  let body ← loopBody g
  expectWord .while
  let test ← parenExpression g
  discard (eatPunct .semicolon)
  return .doWhile (← spanFrom start) body test

/-! ## Jumps -/

/-- Reads a label on the same line, if there is one. -/
def jumpLabel : Parse (Option Ident) := do
  if (← isName) && !(← afterNewline) then some <$> ident else return none

def continueStatement : Parse Stmt := do
  let start ← start
  discard bump
  let label ← jumpLabel
  let context := (← get).context
  match label with
  | some l =>
    match context.labels.find? (·.name == l.name) with
    | some x => if !x.isLoop then fail (.continueNotLoop l.name) l.loc.start
    | none => fail (.undefinedLabel l.name) l.loc.start
  | none => if context.loops == 0 then fail .illegalContinue start
  semicolon
  return .continue (← spanFrom start) label

def breakStatement : Parse Stmt := do
  let start ← start
  discard bump
  let label ← jumpLabel
  let context := (← get).context
  match label with
  | some l =>
    if !context.labels.any (·.name == l.name) then fail (.undefinedLabel l.name) l.loc.start
  | none => if context.loops == 0 && context.switches == 0 then fail .illegalBreak start
  semicolon
  return .break (← spanFrom start) label

def returnStatement (g : Grammar) : Parse Stmt := do
  let start ← start
  if !(← get).context.inFunction && !(← get).bareReturns then fail .returnOutsideFunction start
  discard bump
  let ends := (← isPunct .semicolon) || (← isPunct .rightBrace) || (← isAt .endOfInput)
    || (← afterNewline)
  let argument ← if ends then pure none else some <$> innerExpression g
  semicolon
  return .return (← spanFrom start) argument

def throwStatement (g : Grammar) : Parse Stmt := do
  let start ← start
  discard bump
  if ← afterNewline then fail .newlineAfterThrow (← Parse.start)
  let e ← innerExpression g
  semicolon
  return .throw (← spanFrom start) e

/-! ## Other statements -/

/-- Reads an `if` statement.  An `else` belongs to the nearest `if`. -/
def ifStatement (g : Grammar) : Parse Stmt := do
  let start ← start
  discard bump
  let test ← parenExpression g
  let consequent ← g.statement
  let alternate ← if ← eatWord .else then some <$> g.statement else pure none
  return .if (← spanFrom start) test consequent alternate

def withStatement (g : Grammar) : Parse Stmt := do
  let start ← start
  if ← isStrict then fail .withInStrict start
  discard bump
  let object ← parenExpression g
  let body ← g.statement
  return .with (← spanFrom start) object body

/-- Reads the head of a clause of a `switch` up to its colon; `seen` says
whether there was a default clause. -/
def caseTest (g : Grammar) (seen : Bool) : Parse (Option Expr) := do
  match ← kind with
  | .word .case =>
    discard bump
    some <$> innerExpression g
  | .word .default =>
    if seen then fail .duplicateDefault (← start)
    discard bump
    return none
  | _ => unexpected

/-- Whether the statements of a clause of a `switch` go on. -/
def caseGoesOn : Parse Bool := do
  match ← kind with
  | .word .case | .word .default | .punct .rightBrace | .endOfInput => return false
  | _ => return true

def switchCases (g : Grammar) : Parse (List SwitchCase) :=
  repeatUntil (fun (acc : List SwitchCase) => do
    if ← isPunct .rightBrace then return .inr acc.reverse
    let start ← start
    let test ← caseTest g (acc.any (·.test.isNone))
    expectPunct .colon
    let body ← manyWhile caseGoesOn g.item
    return .inl (⟨← spanFrom start, test, body⟩ :: acc)) []

def switchStatement (g : Grammar) : Parse Stmt := do
  let start ← start
  discard bump
  let discriminant ← parenExpression g
  expectPunct .leftBrace
  let cases ← inContext (fun c => { c with switches := c.switches + 1 }) do
    let cases ← switchCases g
    discard bump
    return cases
  return .switch (← spanFrom start) discriminant cases

/-- Reads what handles an exception, if anything does. -/
def handler (g : Grammar) : Parse (Option Handler) := do
  if !(← isWord .catch) then return none
  let start ← start
  discard bump
  let param ← do
    if ← eatPunct .leftParen then
      let p ← g.bindingTarget
      expectPunct .rightParen
      pure (some p)
    else pure none
  let body ← block g
  return some ⟨← spanFrom start, param, body⟩

def tryStatement (g : Grammar) : Parse Stmt := do
  let start ← start
  discard bump
  let body ← block g
  let handler ← handler g
  let finalizer ← if ← eatWord .finally then some <$> block g else pure none
  if handler.isNone && finalizer.isNone then fail .tryAlone (← Parse.start)
  return .try (← spanFrom start) body handler finalizer

def startsLoop : Parse Bool := do
  match ← kind with
  | .word .for | .word .while | .word .do => return true
  | _ => return false

def labeledStatement (g : Grammar) : Parse Stmt := do
  let start ← start
  let label ← ident
  expectPunct .colon
  if (← get).context.labels.any (·.name == label.name) then
    fail (.duplicateLabel label.name) label.loc.start
  let isLoop ← startsLoop
  let body ← inContext (fun c => { c with labels := ⟨label.name, isLoop⟩ :: c.labels }) g.statement
  return .labeled (← spanFrom start) label body

def expressionStatement (g : Grammar) : Parse Stmt := do
  let start ← start
  let e ← expression g false
  semicolon
  return .expr (← spanFrom start) e

/-- Reads a statement that starts with a name or an expression. -/
def labeledOrExpression (g : Grammar) : Parse Stmt := do
  if ← isName then
    if (← peekKind) == .punct .colon then return ← labeledStatement g
  expressionStatement g

/-- Reads a statement that is no declaration, but for `var` and, in sloppy
code, functions. -/
def statement (g : Grammar) : Parse Stmt := do
  let start ← start
  match ← kind with
  | .punct .leftBrace => return .block (← block g)
  | .punct .semicolon =>
    discard bump
    return .empty (← spanFrom start)
  | .word w =>
    match w with
    | .var => varStatement g .var
    | .if => ifStatement g
    | .for => forStatement g
    | .while => whileStatement g
    | .do => doWhileStatement g
    | .continue => continueStatement
    | .break => breakStatement
    | .return => returnStatement g
    | .with => withStatement g
    | .switch => switchStatement g
    | .throw => throwStatement g
    | .try => tryStatement g
    | .debugger =>
      discard bump
      semicolon
      return .debugger (← spanFrom start)
    | .function =>
      if ← isStrict then unexpected
      return .function (← functionDecl g false false)
    | .class => unexpected
    | _ => labeledOrExpression g
  | _ => labeledOrExpression g

/-- Whether a call or access follows `import`. -/
def importIsExpr : Parse Bool := do
  let k ← peekKind
  return k == .punct .leftParen || k == .punct .dot

def item (g : Grammar) : Parse Stmt := do
  match ← kind with
  | .word w =>
    match w with
    | .function => return .function (← functionDecl g false false)
    | .async =>
      if ← asyncFunctionFollows then return .function (← functionDecl g true false)
      statement g
    | .class => return .class (← classDef g (← start) true)
    | .const => varStatement g .const
    | .let => if ← letDeclares then varStatement g .let else statement g
    | .export | .import =>
      if ← importIsExpr then statement g else fail .misplacedModuleItem (← start)
    | _ => statement g
  | _ => statement g

end Laconic.Parse
