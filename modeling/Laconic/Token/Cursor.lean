import Laconic.Error

/-!
# A cursor in a source text

A cursor is the rest of a text together with the position where that rest
starts.  It moves forward one character at a time, except that a carriage
return takes a following line feed with it, so the two count as one line end
and are never parted.
-/

namespace Laconic

/-- The characters of a text after its first `n` bytes. -/
def dropBytes : Nat → List Char → List Char
  | _, [] => []
  | n, c :: rest => if n = 0 then c :: rest else dropBytes (n - c.utf8Size) rest

/-- The characters of a text within its first `n` bytes. -/
def takeBytes : Nat → List Char → List Char
  | _, [] => []
  | n, c :: rest => if n = 0 then [] else c :: takeBytes (n - c.utf8Size) rest

namespace Position

def pastChar (p : Position) (c : Char) : Position :=
  { p with offset := p.offset + c.utf8Size, column := p.column + 1 }

def pastLine (p : Position) (bytes : Nat) : Position :=
  ⟨p.offset + bytes, p.line + 1, 0⟩

end Position

/-- A place in a text and what follows it. -/
structure Cursor where
  pos : Position
  rest : List Char
deriving DecidableEq, Repr

namespace Cursor

def ofChars (cs : List Char) : Cursor := ⟨.first, cs⟩

def peek? (c : Cursor) : Option Char := c.rest.head?

def advance (c : Cursor) : Cursor :=
  match c.rest with
  | [] => c
  | '\r' :: '\n' :: rest => ⟨c.pos.pastLine 2, rest⟩
  | ch :: rest => ⟨if isLineEnd ch then c.pos.pastLine ch.utf8Size else c.pos.pastChar ch, rest⟩

/-- The cursor at the first character from `pos` on that ends a line or is
not in the class. -/
def skipWhileFrom (p : Char → Bool) (pos : Position) : List Char → Cursor
  | [] => ⟨pos, []⟩
  | c :: rest =>
    if p c && !isLineEnd c then skipWhileFrom p (pos.pastChar c) rest else ⟨pos, c :: rest⟩

/-- Moves over the characters of a class, at most to the end of the line. -/
def skipWhile (p : Char → Bool) (c : Cursor) : Cursor := skipWhileFrom p c.pos c.rest

def textTo (a b : Cursor) : String :=
  String.ofList (takeBytes (b.pos.offset - a.pos.offset) a.rest)

def spanFrom (c : Cursor) (start : Position) (file : Nat) : Span := ⟨start, c.pos, file⟩

end Cursor

/-! ## Reading with a cursor -/

/-- A reader that moves a cursor and may fail; on failure the cursor stays
where it got to. -/
abbrev Scan := EStateM Error Cursor

namespace Scan

def peek? : Scan (Option Char) := return (← get).peek?

def peekSecond? : Scan (Option Char) := return (← get).rest[1]?

def advance : Scan Unit := modify Cursor.advance

def skipWhile (p : Char → Bool) : Scan Unit := modify (Cursor.skipWhile p)

def here : Scan Position := return (← get).pos

def fail {α : Type} (fault : LexicalFault) (pos : Position) : Scan α :=
  throw (.lexical fault pos "")

def eat (ch : Char) : Scan Bool := do
  if (← peek?) == some ch then
    advance
    return true
  return false

/-- A number of rounds that no reader exceeds which moves in each round. -/
def rounds : Scan Nat := return (← get).rest.length + 1

end Scan

end Laconic
