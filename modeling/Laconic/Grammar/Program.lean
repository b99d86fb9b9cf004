import Laconic.Grammar.Statement

/-!
# Programs

Imports and exports, which stand only at the top level of a module, and the
entry point `parse`.
-/

namespace Laconic

namespace Parse

/-! ## Imports -/

def moduleName : Parse ModuleName := do
  if ← isAt .string then return .str (← string) else return .ident (← identName)

/-- Reads an imported name and its local name.  Without one of its own the
imported name is the local one, unless it is reserved. -/
def importSpecifier : Parse ImportSpecifier := do
  let imported ← moduleName
  if ← eatWord .as then return .named imported (← bindingIdent)
  match imported with
  | .ident id =>
    if id.name.isEmpty then unexpected
    if isReservedWord id.name then fail (.unexpectedReservedWord id.name) id.loc.start
    return .named imported ⟨id.loc, id.name, none⟩
  | .str _ => unexpected

def bracedNames {α : Type} (item : Parse α) : Parse (List α) := do
  let items ← repeatUntil (fun acc => do
    if ← isPunct .rightBrace then return .inr acc
    let a ← item
    if ← eatPunct .comma then return .inl (a :: acc)
    return .inr (a :: acc)) []
  expectPunct .rightBrace
  return items.reverse

/-- Reads what is imported besides the default. -/
def importList : Parse (List ImportSpecifier) := do
  if ← eatPunct .star then
    expectWord .as
    return [.namespace (← bindingIdent)]
  if ← eatPunct .leftBrace then bracedNames importSpecifier else return []

def importSpecifiers : Parse (List ImportSpecifier) := do
  if ← isAt .string then return []
  if ← isName then
    let default := .default (← bindingIdent)
    if ← eatPunct .comma then return default :: (← importList) else return [default]
  importList

def importDecl : Parse Stmt := do
  let start ← start
  discard bump
  let specifiers ← importSpecifiers
  if !specifiers.isEmpty then expectWord .from
  let source ← string
  semicolon
  return .importDecl (← spanFrom start) specifiers source

/-! ## Exports -/

def exportDefault (g : Grammar) (start : Position) : Parse Stmt := do
  discard bump
  let isAsync ← if ← isWord .async then asyncFunctionFollows else pure false
  if isAsync || (← isWord .function) then
    let f ← functionDecl g isAsync true
    return .exportFunction (← spanFrom start) f
  if ← isWord .class then
    let c ← classDef g (← Parse.start) false
    return .exportClass (← spanFrom start) c
  let e ← g.assign false
  semicolon
  return .exportExpr (← spanFrom start) e

def exportAll (start : Position) : Parse Stmt := do
  discard bump
  let exported ← if ← eatWord .as then some <$> moduleName else pure none
  expectWord .from
  let source ← string
  semicolon
  return .exportAll (← spanFrom start) exported source

/-- Reads a name and the name it is exported under. -/
def exportSpecifier : Parse ExportSpecifier := do
  let name ← moduleName
  if ← eatWord .as then return ⟨name, ← moduleName⟩ else return ⟨name, name⟩

def exportNames (start : Position) : Parse Stmt := do
  discard bump
  let specifiers ← bracedNames exportSpecifier
  let source ← if ← eatWord .from then some <$> string else pure none
  semicolon
  return .exportNamed (← spanFrom start) specifiers source

def startsDeclaration : Parse Bool := do
  match ← kind with
  | .word .var | .word .let | .word .const | .word .function | .word .class => return true
  | .word .async => asyncFunctionFollows
  | _ => return false

def exportDecl (g : Grammar) : Parse Stmt := do
  let start ← start
  discard bump
  match ← kind with
  | .word .default => exportDefault g start
  | .punct .star => exportAll start
  | .punct .leftBrace => exportNames start
  | _ =>
    if !(← startsDeclaration) then unexpected
    let s ← item g
    return .exportDecl (← spanFrom start) s

/-! ## The whole text -/

def topItem (g : Grammar) : Parse Stmt := do
  if (← get).module then
    if ← isWord .export then return ← exportDecl g
    if ← isWord .import then
      if !(← importIsExpr) then return ← importDecl
  item g

def program (g : Grammar) : Parse Program := do
  let body ← statementList .endOfInput (topItem g)
  let s ← get
  return {
    loc := ⟨.first, s.token.span.stop, s.scanner.file⟩
    kind := if s.module then .module else .script
    body := body
    comments := s.comments.reverse
    shebang := s.scanner.shebang
    files := [] }

end Parse

namespace Grammar

/-- The grammar one level above another. -/
def step (g : Grammar) : Grammar where
  item := Parse.item g
  statement := Parse.statement g
  assign := Parse.assign g
  binary := Parse.binary g
  unary := Parse.unary g
  leftHand := Parse.leftHand g
  newExpr := Parse.newExpr g
  bindingTarget := Parse.bindingTarget g

def levels (n : Nat) : Grammar := Nat.repeat step n exhausted

end Grammar

/-- The state before the first token of a text is taken. -/
def ParserState.initial (scanner : Scanner) (options : ParseOptions) :
    Except Error ParserState :=
  match Scanning.next { scanner with strict := options.module } with
  | .ok t scanner => .ok {
      scanner := scanner
      token := t
      prevKind := none
      prevStop := .first
      module := options.module
      bareReturns := options.bareReturns
      comments := t.comments.reverse
      context := { strict := options.module, isAsync := options.module } }
  | .error e _ => .error e

def parseWith (guess : Option TokenKind → Bool) (options : ParseOptions) (file : Nat)
    (text : String) : Except Error Program := do
  let chars := text.toList
  if !options.shebang && "#!".toList.isPrefixOf chars then
    throw (.grammar (.unexpectedText "#") .first "")
  let s ← ParserState.initial (.ofChars chars file guess) options
  match Parse.program (Grammar.levels (chars.length + 2)) s with
  | .ok p _ => return p
  | .error e _ => throw e

/-- Reads a text as a program; `file` is its number among the texts of the
program. -/
def parseFile (options : ParseOptions) (file : Nat) (text : String) : Except Error Program :=
  parseWith slashStartsRegexp options file text

def parse (options : ParseOptions) (text : String) : Except Error Program :=
  parseFile options 0 text

end Laconic
