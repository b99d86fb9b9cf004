import Laconic.Token.Literal
import Laconic.Token.Trivia

/-!
# The scanner

The scanner cuts a source text into tokens, one at a time, and keeps with each
the comments and line ends in front of it.  Two things a token depends on are
state: a closing brace may end a substitution of a template, so the scanner
counts open braces and remembers at which counts substitutions began; and a
slash may divide or start a regular expression, which it guesses from the kind
of the token before.

A reader that knows the grammar corrects a wrong guess by reading the last
token again (`rescanRegexp`, `rescanDivision`), and reads it again when it
learns that the code is strict (`rescan`).
-/

namespace Laconic

/-- The state of scanning a text. -/
structure Scanner where
  chars : List Char
  /-- The number of the text among the texts of a program. -/
  file : Nat
  cursor : Cursor
  /-- The counts of open braces at which open substitutions began, innermost
  first. -/
  templates : List Nat
  /-- How many braces are open. -/
  braces : Nat
  lastKind : Option TokenKind
  strict : Bool
  /-- The first line after its mark, if the text begins with one. -/
  shebang : Option String
  /-- Guesses whether a slash after a token of some kind starts a regular
  expression. -/
  guess : Option TokenKind → Bool

/-- An operation of the scanner; on failure the state stays as it got. -/
abbrev Scanning := EStateM Error Scanner

namespace Scanner

/-- The scanner at the start of a text. -/
def ofChars (chars : List Char) (file : Nat) (guess : Option TokenKind → Bool) : Scanner where
  chars := chars
  file := file
  cursor := .ofChars chars
  templates := []
  braces := 0
  lastKind := none
  strict := false
  shebang := none
  guess := guess

/-- The scanner at the start of a text, with the usual guess about slashes. -/
def ofText (text : String) (file : Nat) : Scanner := ofChars text.toList file slashStartsRegexp

/-- Whether the whole text has been read. -/
def atEnd (s : Scanner) : Bool := s.cursor.rest.isEmpty

/-- The scanner set back to a position of its text. -/
def resetTo (s : Scanner) (pos : Position) : Scanner :=
  { s with cursor := ⟨pos, dropBytes pos.offset s.chars⟩ }

end Scanner

namespace Scanning

def onCursor {α : Type} (read : Scan α) : Scanning α := fun s =>
  match read s.cursor with
  | .ok a c => .ok a { s with cursor := c }
  | .error e c => .error e { s with cursor := c }

/-! ## Tokens by their first character -/

/-- The first line of a text that begins with `#!`, without that mark. -/
def shebangLine? : List Char → Option (List Char)
  | '#' :: '!' :: rest => some (rest.takeWhile fun c => !isLineEnd c)
  | _ => none

/-- Moves over a first line that begins with `#!` and remembers it. -/
def shebang : Scanning Unit := do
  let s ← get
  if s.cursor.pos.offset == 0 then
    if let some line := shebangLine? s.chars then
      onCursor (Scan.skipWhile fun _ => true)
      modify fun s => { s with shebang := some (String.ofList line) }

/-- Whether a punctuator can be read here.  A question mark, a point and a
digit are a question mark and a number. -/
def punctFits (p : Punct) (rest : List Char) : Bool :=
  p.text.toList.isPrefixOf rest && !(p == .questionDot && (rest.getD 2 ' ').isDigit)

def longestPunct? (rest : List Char) : Option Punct :=
  (Punct.all.filter (punctFits · rest)).foldl
    (fun best p =>
      match best with
      | some q => if q.text.length < p.text.length then some p else best
      | none => some p) none

def punct (start : Cursor) (first : Char) : Scan Lexeme :=
  match longestPunct? start.rest with
  | some p => do
    set ({ pos := p.text.toList.foldl Position.pastChar start.pos
           rest := start.rest.drop p.text.length } : Cursor)
    return .punct p
  | none => Scan.fail (.unexpectedChar first) start.pos

/-- Reads a division, after its slash. -/
def division : Scan Lexeme :=
  return .punct (if ← Scan.eat '=' then .slashEqual else .slash)

/-- Reads what a slash starts, after the slash.  What is no regular expression
is a division. -/
def slash (start : Position) : Scanning Lexeme := do
  let s ← get
  if s.guess s.lastKind then
    match Literal.regexp start s.cursor with
    | .ok l c =>
      set { s with cursor := c }
      return l
    | .error .. => onCursor division
  else onCursor division

def template (start : Position) (first : Bool) : Scanning Lexeme := do
  let strict := (← get).strict
  let (t, more) ← onCursor do
    Literal.templateBody strict start (← Scan.rounds) ⟨[], some []⟩
  if more then modify fun s => { s with templates := s.braces :: s.templates }
  let part : TemplatePart :=
    match first, more with
    | true, true => .head
    | true, false => .whole
    | false, true => .middle
    | false, false => .tail
  return .template part t.value? t.rawText

def closingBrace (start : Position) : Scanning Lexeme := do
  let s ← get
  match s.templates with
  | depth :: outer =>
    if s.braces == depth then
      set { s with templates := outer }
      template start false
    else
      set { s with braces := s.braces - 1 }
      return .punct .rightBrace
  | [] =>
    set { s with braces := s.braces - 1 }
    return .punct .rightBrace

def lexeme (start : Cursor) (first : Char) : Scanning Lexeme := do
  let strict := (← get).strict
  onCursor Scan.advance
  if first == '/' then slash start.pos
  else if first == '"' || first == '\'' then onCursor (Literal.string strict first start)
  else if first == '`' then template start.pos true
  else if first.isDigit || (first == '.' && ((← get).cursor.peek?.any Char.isDigit)) then
    onCursor (Literal.number strict first start)
  else if first == '#' then onCursor (Literal.privateName start.pos)
  else if isIdStart first || first == '\\' then onCursor (Literal.identifier first start.pos)
  else if first == '}' then closingBrace start.pos
  else
    if first == '{' then modify fun s => { s with braces := s.braces + 1 }
    onCursor (punct start first)

/-! ## Tokens -/

/-- Reads the next token.  At the end of the text the answer is a token of its
own, which is not remembered as the last one. -/
def next : Scanning Token := do
  shebang
  let trivia ← onCursor (Trivia.read (← get).file)
  let start := (← get).cursor
  let token (l : Lexeme) (s : Scanner) : Token :=
    ⟨l, s.cursor.spanFrom start.pos s.file, trivia.newline, trivia.reversed.reverse⟩
  match start.peek? with
  | none => return token .endOfInput (← get)
  | some c =>
    let l ← lexeme start c
    modify fun s => { s with lastKind := some l.kind }
    return token l (← get)

/-- Reads a token again as a regular expression. -/
def rescanRegexp (t : Token) : Scanning Token := do
  modify (·.resetTo t.span.start)
  let l ← onCursor do
    Scan.advance
    Literal.regexp t.span.start
  modify fun s => { s with lastKind := some .regexp }
  let s ← get
  return { t with lexeme := l, span := s.cursor.spanFrom t.span.start s.file }

def rescanDivision (t : Token) : Scanning Token := do
  modify (·.resetTo t.span.start)
  let l ← onCursor do
    Scan.advance
    division
  modify fun s => { s with lastKind := some l.kind }
  let s ← get
  return { t with lexeme := l, span := s.cursor.spanFrom t.span.start s.file }

/-- Takes back what reading a token did to the counts of braces and
substitutions. -/
def undo (l : Lexeme) (s : Scanner) : Scanner :=
  match l with
  | .template .head .. => { s with templates := s.templates.tail }
  | .punct .leftBrace => { s with braces := s.braces - 1 }
  | .punct .rightBrace => { s with braces := s.braces + 1 }
  | _ => s

/-- Reads the last token again from its start; `prev` is the kind of the token
before it.  A part of a template that follows a substitution is kept. -/
def rescan (t : Token) (prev : Option TokenKind) : Scanning Token := do
  match t.lexeme with
  | .template .middle .. | .template .tail .. => return t
  | l =>
    modify fun s => undo l { s.resetTo t.span.start with lastKind := prev }
    let fresh ← next
    return { fresh with afterNewline := t.afterNewline, comments := t.comments }

/-- Reads the remaining tokens, at most as many as the bound. -/
def remaining : Nat → Scanning (List Token)
  | 0 => return []
  | bound + 1 => do
    let t ← next
    match t.lexeme with
    | .endOfInput => return []
    | _ => return t :: (← remaining bound)

end Scanning

def tokenize (text : String) : Except Error (List Token) :=
  match Scanning.remaining (text.length + 1) (Scanner.ofText text 0) with
  | .ok tokens _ => .ok tokens
  | .error e _ => .error e

end Laconic
