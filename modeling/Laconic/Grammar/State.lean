import Laconic.Token.Scanner
import Laconic.Tree.Access

/-!
# Reading a program token by token

The reader of programs looks at one token at a time, the present one, and can
look at those after it without taking them.  What a token may mean depends on
where it stands: in a function or loop, under which labels, in strict code.
That is the `Context`, which a function body replaces and gives back.

Every operation here either takes at least one token or leaves the present
token alone; the loops and the recursion of the grammar are bounded by the
length of the text.
-/

namespace Laconic

/-- How a source text is to be read. -/
structure ParseOptions where
  module : Bool := false
  /-- Whether `return` may stand outside functions. -/
  bareReturns : Bool := false
  /-- Whether the first line may begin with `#!`. -/
  shebang : Bool := true
deriving DecidableEq, Repr

/-- A label around a statement. -/
structure Label where
  name : String
  /-- Whether it stands directly before a loop. -/
  isLoop : Bool
deriving DecidableEq, Repr

/-- What surrounds the present token. -/
structure Context where
  inFunction : Bool := false
  isAsync : Bool := false
  isGenerator : Bool := false
  strict : Bool := false
  loops : Nat := 0
  switches : Nat := 0
  /-- The labels, innermost first. -/
  labels : List Label := []
deriving DecidableEq, Repr

/-- The state of reading a program. -/
structure ParserState where
  scanner : Scanner
  /-- The present token, which has not been taken yet. -/
  token : Token
  prevKind : Option TokenKind
  /-- Where the last token taken ends. -/
  prevStop : Position
  module : Bool
  bareReturns : Bool
  /-- The comments before the tokens up to the present one, last first. -/
  comments : List Comment
  context : Context

abbrev Parse := EStateM Error ParserState

namespace Parse

/-! ## Failing -/

def fail {α : Type} (fault : SyntaxFault) (pos : Position) : Parse α :=
  throw (.grammar fault pos "")

/-- Fails because the present token cannot stand here. -/
def unexpected {α : Type} : Parse α := do
  let t := (← get).token
  fail (.unexpected t.lexeme) t.span.start

/-! ## Looking -/

def kind : Parse TokenKind := return (← get).token.kind

def isAt (k : TokenKind) : Parse Bool := return (← get).token.kind == k

def isPunct (p : Punct) : Parse Bool := isAt (.punct p)

def isWord (w : Word) : Parse Bool := isAt (.word w)

def afterNewline : Parse Bool := return (← get).token.afterNewline

def isStrict : Parse Bool := return (← get).context.strict

def start : Parse Position := return (← get).token.span.start

/-- The span from a position to the end of the last token taken. -/
def spanFrom (start : Position) : Parse Span := do
  let s ← get
  return ⟨start, s.prevStop, s.scanner.file⟩

def peek? : Parse (Option Token) := do
  match Scanning.next (← get).scanner with
  | .ok t _ => return some t
  | .error .. => return none

/-- The kind of the token after the present one; text that is no token counts
as the end. -/
def peekKind : Parse TokenKind := return (← peek?).elim .endOfInput (·.kind)

def peekTwo? : Parse (Option (Token × Token)) := do
  match Scanning.next (← get).scanner with
  | .ok a s =>
    match Scanning.next s with
    | .ok b _ => return some (a, b)
    | .error .. => return none
  | .error .. => return none

/-! ## Taking -/

def onScanner {α : Type} (act : Scanning α) : Parse α := fun s =>
  match act s.scanner with
  | .ok a scanner => .ok a { s with scanner := scanner }
  | .error e scanner => .error e { s with scanner := scanner }

def bump : Parse Token := do
  let fresh ← onScanner Scanning.next
  let s ← get
  set { s with
    token := fresh
    prevKind := some s.token.kind
    prevStop := s.token.span.stop
    comments := fresh.comments.reverse ++ s.comments }
  return s.token

def eat (k : TokenKind) : Parse Bool := do
  if ← isAt k then
    discard bump
    return true
  return false

def eatPunct (p : Punct) : Parse Bool := eat (.punct p)

def eatWord (w : Word) : Parse Bool := eat (.word w)

def expect (k : TokenKind) : Parse Token := do
  if ← isAt k then bump else unexpected

def expectPunct (p : Punct) : Parse Unit := discard (expect (.punct p))

def expectWord (w : Word) : Parse Unit := discard (expect (.word w))

/-- Takes the end of a statement.  A semicolon may be left out before a closing
brace, at the end, and where a line ends. -/
def semicolon : Parse Unit := do
  if ← eatPunct .semicolon then return
  if (← isPunct .rightBrace) || (← isAt .endOfInput) || (← afterNewline) then return
  unexpected

/-! ## Context -/

def modifyContext (f : Context → Context) : Parse Unit :=
  modify fun s => { s with context := f s.context }

/-- Makes the code strict or not.  The present token is read again if that
changes. -/
def setStrict (strict : Bool) : Parse Unit := do
  modifyContext ({ · with strict := strict })
  let s ← get
  if s.scanner.strict != strict then
    let t ← onScanner do
      modify ({ · with strict := strict })
      Scanning.rescan s.token s.prevKind
    modify ({ · with token := t })

/-- Reads something in the context of a new function. -/
def inFunction {α : Type} (isAsync isGenerator : Bool) (act : Parse α) : Parse α := do
  let outer := (← get).context
  modifyContext fun _ =>
    { inFunction := true, isAsync := isAsync, isGenerator := isGenerator, strict := outer.strict }
  let a ← act
  modifyContext fun _ => outer
  setStrict outer.strict
  return a

def inContext {α : Type} (change : Context → Context) (act : Parse α) : Parse α := do
  let outer := (← get).context
  modifyContext change
  let a ← act
  modifyContext fun _ => outer
  return a

/-! ## Loops -/

/-- A number of rounds that no loop exceeds which takes a token in each round.
It is the same everywhere in a text: a slash that was taken for the start of a
regular expression hides tokens that are read again later. -/
def rounds : Parse Nat := return (← get).scanner.chars.length + 2

/-- Repeats a step from a state until it gives a result, within a number of
rounds. -/
def repeatWithin {σ α : Type} (step : σ → Parse (σ ⊕ α)) : Nat → σ → Parse α
  | 0, _ => do fail .tooDeep (← start)
  | bound + 1, s => do
    match ← step s with
    | .inl s => repeatWithin step bound s
    | .inr a => return a

def repeatUntil {σ α : Type} (step : σ → Parse (σ ⊕ α)) (s : σ) : Parse α := do
  repeatWithin step (← rounds) s

/-- Reads items as long as the present token satisfies a test. -/
def manyWhile {α : Type} (test : Parse Bool) (item : Parse α) : Parse (List α) :=
  repeatUntil (fun acc => do
    if ← test then return .inl ((← item) :: acc) else return .inr acc.reverse) []

/-! ## Names -/

/-- Whether the present token can be used as a name here. -/
def isName : Parse Bool := do
  let s ← get
  match s.token.kind with
  | .identifier => return true
  | .word w =>
    match w with
    | .async | .from | .as | .get | .set | .target | .metaName | .of => return true
    | .let | .static => return !s.context.strict
    | .yield => return !s.context.isGenerator && !s.context.strict
    | .await => return !s.context.isAsync && !s.module
    | _ => return false
  | _ => return false

def bumpIdent : Parse Ident := do
  let t ← bump
  return ⟨t.span, t.lexeme.text, none⟩

def ident : Parse Ident := do
  if ← isName then bumpIdent else unexpected

/-- The names that strict code must neither declare nor assign. -/
def isRestricted (name : String) : Bool := name == "eval" || name == "arguments"

def bindingIdent : Parse Ident := do
  let id ← ident
  if (← isStrict) && isRestricted id.name then fail (.strictBinding id.name) id.loc.start
  return id

/-- Reads any word as the name of a property. -/
def identName : Parse Ident := do
  match ← kind with
  | .identifier | .word _ => bumpIdent
  | _ => unexpected

def stringLit (t : Token) : StringLit :=
  match t.lexeme with
  | .string value raw => ⟨t.span, value, raw⟩
  | _ => ⟨t.span, "", none⟩

def string : Parse StringLit := do
  if ← isAt .string then return stringLit (← bump) else unexpected

def asyncFunctionFollows : Parse Bool :=
  return (← peek?).any fun t => t.kind == .word .function && !t.afterNewline

def letDeclares : Parse Bool := do
  match ← peek? with
  | some t =>
    match t.kind with
    | .punct p => return p == .leftBracket || p == .leftBrace
    | .identifier => return true
    | .word w => return w.isContextual
    | _ => return false
  | none => return false

/-- Whether a word that can be a modifier of a member is its name here. -/
def modifierIsName : Parse Bool := do
  match ← peek? with
  | some t =>
    match t.kind with
    | .punct p =>
      return p == .leftParen || p == .equal || p == .semicolon || p == .rightBrace || p == .comma
        || p == .colon
    | .endOfInput => return true
    | _ => return false
  | none => return true

end Parse

end Laconic
