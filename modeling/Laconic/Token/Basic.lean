import Laconic.Text.Position
import Laconic.Text.Letter
import Laconic.Text.Blank

/-!
# Tokens

The tokens of a JavaScript text: literals, names, the words with a meaning
of their own, punctuators and the end of the input.  A `Lexeme` is what a
token says; a `Token` adds where it stands, the comments before it and
whether a line ended there.

A *word* is reserved unless it is contextual: a contextual word is an
ordinary name wherever the grammar does not ask for the word.
-/

namespace Laconic

/-! ## Words -/

/-- The names that the grammar knows. -/
inductive Word where
  | await
  | break
  | case
  | catch
  | «class»
  | const
  | continue
  | debugger
  | default
  | delete
  | do
  | else
  | enum
  | export
  | extends
  | falseLit
  | finally
  | for
  | function
  | if
  | import
  | in
  | instanceof
  | let
  | new
  | null
  | of
  | return
  | static
  | super
  | switch
  | this
  | throw
  | trueLit
  | try
  | typeof
  | var
  | void
  | while
  | with
  | yield
  | async
  | from
  | as
  | get
  | set
  | target
  | metaName
deriving DecidableEq, Repr

namespace Word

def all : List Word := [
  .await, .break, .case, .catch, .class, .const, .continue, .debugger, .default, .delete, .do,
  .else, .enum, .export, .extends, .falseLit, .finally, .for, .function, .if, .import, .in,
  .instanceof, .let, .new, .null, .of, .return, .static, .super, .switch, .this, .throw,
  .trueLit, .try, .typeof, .var, .void, .while, .with, .yield, .async, .from, .as, .get, .set,
  .target, .metaName]

def text : Word → String
  | .await => "await"
  | .break => "break"
  | .case => "case"
  | .catch => "catch"
  | .class => "class"
  | .const => "const"
  | .continue => "continue"
  | .debugger => "debugger"
  | .default => "default"
  | .delete => "delete"
  | .do => "do"
  | .else => "else"
  | .enum => "enum"
  | .export => "export"
  | .extends => "extends"
  | .falseLit => "false"
  | .finally => "finally"
  | .for => "for"
  | .function => "function"
  | .if => "if"
  | .import => "import"
  | .in => "in"
  | .instanceof => "instanceof"
  | .let => "let"
  | .new => "new"
  | .null => "null"
  | .of => "of"
  | .return => "return"
  | .static => "static"
  | .super => "super"
  | .switch => "switch"
  | .this => "this"
  | .throw => "throw"
  | .trueLit => "true"
  | .try => "try"
  | .typeof => "typeof"
  | .var => "var"
  | .void => "void"
  | .while => "while"
  | .with => "with"
  | .yield => "yield"
  | .async => "async"
  | .from => "from"
  | .as => "as"
  | .get => "get"
  | .set => "set"
  | .target => "target"
  | .metaName => "meta"

def ofText? (s : String) : Option Word := all.find? (·.text == s)

def isContextual : Word → Bool
  | .async | .from | .as | .get | .set | .target | .metaName | .of | .let | .static | .yield
  | .await => true
  | _ => false

/-- A word is found by its spelling. -/
@[simp] theorem ofText?_text (w : Word) : ofText? w.text = some w := by
  cases w <;> decide +kernel

end Word

/-! ## Punctuators -/

inductive Punct where
  | leftBrace
  | rightBrace
  | leftParen
  | rightParen
  | leftBracket
  | rightBracket
  | dot
  | dotDotDot
  | semicolon
  | comma
  | less
  | greater
  | lessEqual
  | greaterEqual
  | equalEqual
  | bangEqual
  | equalEqualEqual
  | bangEqualEqual
  | plus
  | minus
  | star
  | starStar
  | slash
  | percent
  | plusPlus
  | minusMinus
  | lessLess
  | greaterGreater
  | greaterGreaterGreater
  | ampersand
  | pipe
  | caret
  | bang
  | tilde
  | ampersandAmpersand
  | pipePipe
  | questionQuestion
  | question
  | colon
  | equal
  | plusEqual
  | minusEqual
  | starEqual
  | starStarEqual
  | slashEqual
  | percentEqual
  | lessLessEqual
  | greaterGreaterEqual
  | greaterGreaterGreaterEqual
  | ampersandEqual
  | pipeEqual
  | caretEqual
  | ampersandAmpersandEqual
  | pipePipeEqual
  | questionQuestionEqual
  | arrow
  | questionDot
deriving DecidableEq, Repr

namespace Punct

def all : List Punct := [
  .leftBrace, .rightBrace, .leftParen, .rightParen, .leftBracket, .rightBracket, .dot,
  .dotDotDot, .semicolon, .comma, .less, .greater, .lessEqual, .greaterEqual, .equalEqual,
  .bangEqual, .equalEqualEqual, .bangEqualEqual, .plus, .minus, .star, .starStar, .slash,
  .percent, .plusPlus, .minusMinus, .lessLess, .greaterGreater, .greaterGreaterGreater,
  .ampersand, .pipe, .caret, .bang, .tilde, .ampersandAmpersand, .pipePipe, .questionQuestion,
  .question, .colon, .equal, .plusEqual, .minusEqual, .starEqual, .starStarEqual, .slashEqual,
  .percentEqual, .lessLessEqual, .greaterGreaterEqual, .greaterGreaterGreaterEqual,
  .ampersandEqual, .pipeEqual, .caretEqual, .ampersandAmpersandEqual, .pipePipeEqual,
  .questionQuestionEqual, .arrow, .questionDot]

def text : Punct → String
  | .leftBrace => "\x7b"
  | .rightBrace => "\x7d"
  | .leftParen => "("
  | .rightParen => ")"
  | .leftBracket => "["
  | .rightBracket => "]"
  | .dot => "."
  | .dotDotDot => "..."
  | .semicolon => ";"
  | .comma => ","
  | .less => "<"
  | .greater => ">"
  | .lessEqual => "<="
  | .greaterEqual => ">="
  | .equalEqual => "=="
  | .bangEqual => "!="
  | .equalEqualEqual => "==="
  | .bangEqualEqual => "!=="
  | .plus => "+"
  | .minus => "-"
  | .star => "*"
  | .starStar => "**"
  | .slash => "/"
  | .percent => "%"
  | .plusPlus => "++"
  | .minusMinus => "--"
  | .lessLess => "<<"
  | .greaterGreater => ">>"
  | .greaterGreaterGreater => ">>>"
  | .ampersand => "&"
  | .pipe => "|"
  | .caret => "^"
  | .bang => "!"
  | .tilde => "~"
  | .ampersandAmpersand => "&&"
  | .pipePipe => "||"
  | .questionQuestion => "??"
  | .question => "?"
  | .colon => ":"
  | .equal => "="
  | .plusEqual => "+="
  | .minusEqual => "-="
  | .starEqual => "*="
  | .starStarEqual => "**="
  | .slashEqual => "/="
  | .percentEqual => "%="
  | .lessLessEqual => "<<="
  | .greaterGreaterEqual => ">>="
  | .greaterGreaterGreaterEqual => ">>>="
  | .ampersandEqual => "&="
  | .pipeEqual => "|="
  | .caretEqual => "^="
  | .ampersandAmpersandEqual => "&&="
  | .pipePipeEqual => "||="
  | .questionQuestionEqual => "??="
  | .arrow => "=>"
  | .questionDot => "?."

def ofText? (s : String) : Option Punct := all.find? (·.text == s)

@[simp] theorem ofText?_text (p : Punct) : ofText? p.text = some p := by
  cases p <;> decide +kernel

end Punct

/-! ## Lexemes -/

inductive TemplatePart where
  /-- A template without substitutions. -/
  | whole
  /-- From the opening back quote to the first substitution. -/
  | head
  /-- Between two substitutions. -/
  | middle
  /-- From the last substitution to the closing back quote. -/
  | tail
deriving DecidableEq, Repr

/-- The kinds of token, without what a token of the kind says. -/
inductive TokenKind where
  | number
  | bigint
  | string
  | template (part : TemplatePart)
  | regexp
  | identifier
  | privateName
  | word (w : Word)
  | punct (p : Punct)
  | endOfInput
deriving DecidableEq, Repr

/-- What a token says. -/
inductive Lexeme where
  | number (value : Float)
  /-- A whole number of any size, by its digits and radix mark. -/
  | bigint (digits : String)
  /-- A string.  Its source text is kept if a lone surrogate was replaced
  in the value. -/
  | string (value : String) (raw : Option String)
  /-- A part of a template.  A part with an invalid escape has no value. -/
  | template (part : TemplatePart) (cooked : Option String) (raw : String)
  | regexp (pattern flags : String)
  | identifier (name : String)
  | privateName (name : String)
  | word (w : Word)
  | punct (p : Punct)
  | endOfInput
deriving Repr, Inhabited

namespace TokenKind

def text : TokenKind → String
  | .number | .bigint => "number"
  | .string => "string"
  | .template _ => "template"
  | .regexp => "regexp"
  | .identifier => "name"
  | .privateName => "private name"
  | .word w => w.text
  | .punct p => p.text
  | .endOfInput => "end of input"

end TokenKind

namespace Lexeme

def kind : Lexeme → TokenKind
  | .number _ => .number
  | .bigint _ => .bigint
  | .string .. => .string
  | .template part .. => .template part
  | .regexp .. => .regexp
  | .identifier _ => .identifier
  | .privateName _ => .privateName
  | .word w => .word w
  | .punct p => .punct p
  | .endOfInput => .endOfInput

/-- The name or string that a lexeme carries, else how its kind is called. -/
def text : Lexeme → String
  | .string value _ => value
  | .identifier name | .privateName name => name
  | l => l.kind.text

end Lexeme

/-! ## Comments and tokens -/

/-- The two forms of comment. -/
inductive CommentKind where
  | line
  | block
deriving DecidableEq, Repr

def occursIn (part : List Char) : List Char → Bool
  | [] => part.isEmpty
  | c :: cs => part.isPrefixOf (c :: cs) || occursIn part cs

def containsText (s part : String) : Bool := occursIn part.toList s.toList

/-- A comment, with the text between its marks. -/
structure Comment where
  kind : CommentKind
  text : String
  span : Span
deriving DecidableEq, Repr

namespace Comment

/-- The comments that carry a notice and are kept by default. -/
def isLicense (c : Comment) : Bool :=
  (c.kind == .block && c.text.toList.head? == some '!')
    || containsText c.text "@license" || containsText c.text "@preserve"
    || containsText c.text "@cc_on"

/-- The comments that promise a call without effects. -/
def isPureMark (c : Comment) : Bool :=
  c.kind == .block && (containsText c.text "@__PURE__" || containsText c.text "#__PURE__")

end Comment

/-- A lexeme at its place. -/
structure Token where
  lexeme : Lexeme
  span : Span
  /-- Whether a line ended between this token and the one before it. -/
  afterNewline : Bool
  /-- The comments between this token and the one before it. -/
  comments : List Comment
deriving Repr, Inhabited

namespace Token

def kind (t : Token) : TokenKind := t.lexeme.kind

end Token

/-! ## Names -/

def isIdStart (c : Char) : Bool := c == '$' || c == '_' || isLetter c

/-- The characters an identifier goes on with. -/
def isIdPart (c : Char) : Bool :=
  c == '$' || c == '_' || c == '\u200c' || c == '\u200d' || isLetter c || isNumeric c

/-- Whether a text can be written as a name. -/
def isIdentifierName (s : String) : Bool :=
  match s.toList with
  | c :: rest => isIdStart c && rest.all isIdPart
  | [] => false

/-- Whether a text is a word that is never a name. -/
def isReservedWord (s : String) : Bool :=
  match Word.ofText? s with
  | some w => !w.isContextual
  | none => false

/-- Whether a slash after a token of the given kind starts a regular
expression, judged by that kind alone.  After something that ends an operand
it divides. -/
def slashStartsRegexp : Option TokenKind → Bool
  | none => true
  | some k =>
    match k with
    | .identifier | .privateName | .number | .bigint | .string | .regexp => false
    | .template part => part != .whole && part != .tail
    | .word w => !(w.isContextual || w == .trueLit || w == .falseLit || w == .null || w == .this
        || w == .super)
    | .punct p => !(p == .rightParen || p == .rightBracket || p == .plusPlus || p == .minusMinus)
    | .endOfInput => true

end Laconic
