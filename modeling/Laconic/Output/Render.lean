import Laconic.Output.Layout

/-!
# Rendering pieces

The pieces of a layout are written one after the other.  A blank is written
between two tokens only if they would run together.  The semicolon after a
statement is held back until the next token shows whether it is needed.

Lines are counted from one and columns from zero, in UTF-16 code units, as
source maps want them.
-/

namespace Laconic

/-- Where a token stands in the output and where it comes from. -/
structure Mapping where
  /-- The name of the source text. -/
  source : String
  line : Nat
  column : Nat
  sourceLine : Nat
  sourceColumn : Nat
  name : Option String
deriving DecidableEq, Repr

/-- What has been written, and what the next token depends on. -/
structure Rendered where
  text : String := ""
  line : Nat := 1
  column : Nat := 0
  last : Char := '\x00'
  /-- Whether a statement has ended without its semicolon. -/
  pendingSemi : Bool := false
  indent : Nat := 0
  /-- The place of the next token. -/
  pendingMap : Option (Span × Option String) := none
  /-- The comments that are still to be written. -/
  comments : List Comment := []
  /-- The places of the tokens so far, last first. -/
  mappings : List Mapping := []

namespace Rendered

/-! ## Characters -/

def isWordChar (c : Char) : Bool :=
  c.isAlphanum || c == '_' || c == '$' || c == '\\' || (!Spelling.isAscii c && isIdPart c)

/-- Whether two characters of different tokens would run together. -/
def runTogether (a b : Char) : Bool :=
  (isWordChar a && isWordChar b) || (a == '+' && b == '+') || (a == '-' && b == '-')
    || (a == '/' && (b == '/' || b == '*')) || (a == '<' && b == '!')

/-- The line and column after a character. -/
def advance (place : Nat × Nat) (c : Char) : Nat × Nat :=
  if c == '\n' then (place.1 + 1, 0) else (place.1, place.2 + charWidth c)

def raw (s : String) (r : Rendered) : Rendered :=
  let (line, column) := s.toList.foldl advance (r.line, r.column)
  { r with
    text := r.text ++ s, line := line, column := column, last := s.toList.getLastD r.last }

/-! ## Pieces -/

/-- The semicolon that was held back, and a line end if the line is long. -/
def flushSemi (o : OutputOptions) (r : Rendered) : Rendered :=
  if r.pendingSemi then
    let r := raw ";" { r with pendingSemi := false }
    if 0 < o.maxLineLen && o.maxLineLen < r.column then raw "\n" r else r
  else r

/-- Whether a line end before a token would not end the statement before it. -/
def continuesLine (s : String) : Bool :=
  match s.toList with
  | c :: _ => c == '(' || c == '[' || c == '+' || c == '-' || c == '/' || c == '`'
  | [] => false

/-- What parts a token from the statement before it: nothing before a closing
brace, a line end if that will do, else the semicolon. -/
def endStatement (o : OutputOptions) (s : String) (r : Rendered) : Rendered :=
  if !r.pendingSemi then r
  else if !o.beautify && s == "\x7d" then { r with pendingSemi := false }
  else if !o.beautify && !o.semicolons && !continuesLine s then
    raw "\n" { r with pendingSemi := false }
  else flushSemi o r

/-- A blank if a token would run together with the one before it. -/
def separate (s : String) (r : Rendered) : Rendered :=
  match s.toList with
  | c :: _ => if runTogether r.last c then raw " " r else r
  | [] => r

/-- Notes the place of the token that follows. -/
def emitMap (files : List String) (r : Rendered) : Rendered :=
  match r.pendingMap with
  | none => r
  | some (loc, name) =>
    let m : Mapping := ⟨files.getD loc.file "0", r.line, r.column, loc.start.line,
      loc.start.column, name⟩
    { r with pendingMap := none, mappings := m :: r.mappings }

def token (o : OutputOptions) (files : List String) (s : String) (r : Rendered) : Rendered :=
  raw s (emitMap files (separate s (endStatement o s r)))

/-- The blanks at the start of an indented line. -/
def margin (o : OutputOptions) (r : Rendered) : Rendered :=
  raw (String.ofList (List.replicate (r.indent * o.indentLevel) ' ')) r

def newline (o : OutputOptions) (r : Rendered) : Rendered :=
  if o.beautify then margin o (raw "\n" (flushSemi o r)) else r

/-! ## Comments -/

def comment (o : OutputOptions) (files : List String) (c : Comment) (r : Rendered) : Rendered :=
  let s := if o.inlineScript then String.ofList (Spelling.inlineScript c.text.toList) else c.text
  match c.kind with
  | .block => newline o (token o files ("/*" ++ s ++ "*/") r)
  | .line =>
    let r := raw "\n" (token o files ("//" ++ s) r)
    if o.beautify then margin o r else r

def writeComments (o : OutputOptions) (files : List String) (cs : List Comment) (r : Rendered) :
    Rendered :=
  cs.foldl (fun r c => comment o files c r) r

def isBefore (loc : Span) (c : Comment) : Bool :=
  c.span.file < loc.file || (c.span.file == loc.file && c.span.stop.offset ≤ loc.start.offset)

def commentsBefore (o : OutputOptions) (files : List String) (loc : Span) (r : Rendered) :
    Rendered :=
  if loc.isNowhere then r
  else
    let rest := r.comments.dropWhile (isBefore loc)
    { writeComments o files (r.comments.takeWhile (isBefore loc)) r with comments := rest }

def keeps (o : OutputOptions) (c : Comment) : Bool :=
  match o.comments with
  | .nothing => false
  | .notices => c.isLicense
  | .everything => true

/-- Whether a comment does not start after another one. -/
def commentLe (a b : Comment) : Bool :=
  a.span.file < b.span.file
    || (a.span.file == b.span.file && a.span.start.offset ≤ b.span.start.offset)

/-- The comments to be written, in the order of the source texts. -/
def keptComments (o : OutputOptions) (cs : List Comment) : List Comment :=
  (cs.filter (keeps o)).mergeSort commentLe

/-! ## Whole layouts -/

def piece (o : OutputOptions) (files : List String) (r : Rendered) : Piece → Rendered
  | .token s => token o files s r
  | .raw s => raw s r
  | .space => if o.beautify then raw " " r else r
  | .newline => newline o r
  | .semi => { r with pendingSemi := true }
  | .indent => { r with indent := r.indent + 1 }
  | .dedent => { r with indent := r.indent - 1 }
  | .map loc name => if loc.isNowhere then r else { r with pendingMap := some (loc, name) }
  | .comments loc => commentsBefore o files loc r

def pieces (o : OutputOptions) (files : List String) (l : Layout) (r : Rendered) : Rendered :=
  (l false).1.foldl (piece o files) r

def headLine (s : String) (r : Rendered) : Rendered := raw "\n" (raw s r)

/-- The lines before the program itself. -/
def head (o : OutputOptions) (shebang : Option String) (r : Rendered) : Rendered :=
  let r :=
    match shebang with
    | some line => if o.shebang then headLine line (raw "#!" r) else r
    | none => r
  match o.preamble with
  | some s => headLine s r
  | none => r

end Rendered

/-- A program as text, with the places of its tokens. -/
def render (o : OutputOptions) (p : Program) : Rendered :=
  let start : Rendered := { comments := Rendered.keptComments o p.comments }
  let body := Layout.separated Layout.newline (Layout.stmts o p.body)
  let r := Rendered.pieces o p.files body (Rendered.head o p.shebang start)
  let r := { Rendered.writeComments o p.files r.comments r with comments := [] }
  if o.semicolons || o.beautify then Rendered.flushSemi o r else r

def print (o : OutputOptions) (p : Program) : String := (render o p).text

/-- The places of the tokens of a program in its text, in order. -/
def mappings (o : OutputOptions) (p : Program) : List Mapping := (render o p).mappings.reverse

def Expr.text (e : Expr) : String :=
  let o : OutputOptions := {}
  (Rendered.pieces o [] (Layout.slot Strength.sequence e (Layout.inner o · e)) {}).text

end Laconic
