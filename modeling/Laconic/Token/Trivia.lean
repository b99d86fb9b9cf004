import Laconic.Token.Cursor

/-!
# Between the tokens

Between two tokens stand white space and comments.  Three functions follow
the text character by character, one for each state the reader can be in: in
white space, in a line comment, in a block comment.  They collect the
comments, last first, and note whether a line ended.

A line end inside a block comment counts; the line end that closes a line
comment is white space after it.
-/

namespace Laconic

/-- What stands between two tokens. -/
structure Trivia where
  /-- Whether a line ended. -/
  newline : Bool
  /-- The comments, last first. -/
  reversed : List Comment

namespace Trivia

def none : Trivia := ⟨false, []⟩

/-- A line end more. -/
def withNewline (t : Trivia) : Trivia := { t with newline := true }

/-- A comment more.  Its text is given last character first. -/
def withComment (t : Trivia) (kind : CommentKind) (text : List Char) (span : Span) : Trivia :=
  { t with reversed := ⟨kind, String.ofList text.reverse, span⟩ :: t.reversed }

mutual

def blanks (file : Nat) (t : Trivia) (pos : Position) :
    List Char → EStateM.Result Error Cursor Trivia
  | [] => .ok t ⟨pos, []⟩
  | '/' :: '/' :: rest => lineComment file t pos [] ((pos.pastChar '/').pastChar '/') rest
  | '/' :: '*' :: rest => blockComment file t pos [] ((pos.pastChar '/').pastChar '*') rest
  | '\r' :: '\n' :: rest => blanks file t.withNewline (pos.pastLine 2) rest
  | c :: rest =>
    if isLineEnd c then blanks file t.withNewline (pos.pastLine c.utf8Size) rest
    else if isWhiteSpace c then blanks file t (pos.pastChar c) rest
    else .ok t ⟨pos, c :: rest⟩

def lineComment (file : Nat) (t : Trivia) (start : Position) (text : List Char)
    (pos : Position) : List Char → EStateM.Result Error Cursor Trivia
  | [] => .ok (t.withComment .line text ⟨start, pos, file⟩) ⟨pos, []⟩
  | '\r' :: '\n' :: rest =>
    blanks file (t.withComment .line text ⟨start, pos, file⟩).withNewline (pos.pastLine 2) rest
  | c :: rest =>
    if isLineEnd c then
      blanks file (t.withComment .line text ⟨start, pos, file⟩).withNewline
        (pos.pastLine c.utf8Size) rest
    else lineComment file t start (c :: text) (pos.pastChar c) rest

def blockComment (file : Nat) (t : Trivia) (start : Position) (text : List Char)
    (pos : Position) : List Char → EStateM.Result Error Cursor Trivia
  | [] => .error (.lexical .unterminatedComment start "") ⟨pos, []⟩
  | '*' :: '/' :: rest =>
    let stop := (pos.pastChar '*').pastChar '/'
    blanks file (t.withComment .block text ⟨start, stop, file⟩) stop rest
  | '\r' :: '\n' :: rest =>
    blockComment file t.withNewline start ('\n' :: '\r' :: text) (pos.pastLine 2) rest
  | c :: rest =>
    if isLineEnd c then
      blockComment file t.withNewline start (c :: text) (pos.pastLine c.utf8Size) rest
    else blockComment file t start (c :: text) (pos.pastChar c) rest

end

/-- Moves to the next token, over white space and comments. -/
def read (file : Nat) : Scan Trivia := fun c => blanks file none c.pos c.rest

end Trivia

end Laconic
