import Laconic.Output.Spelling

/-!
# Layouts

Writing a tree takes two steps.  The tree is first laid out as a sequence of
pieces, the tokens and what may stand between them; then the pieces are
rendered one after the other, which decides on blanks, semicolons and line
ends.

While the head of a `for` loop is laid out, an `in` operator has to stand in
parentheses.  A `Layout` is therefore given whether that is so, and says whether
it is still so after it.
-/

namespace Laconic

inductive Piece where
  /-- A token, parted from the one before it if they would run together. -/
  | token (text : String)
  /-- Text that follows directly. -/
  | raw (text : String)
  /-- A blank in indented output. -/
  | space
  /-- A line end in indented output. -/
  | newline
  /-- The end of a statement. -/
  | semi
  | indent
  | dedent
  /-- The next token comes from this place, and perhaps from this name. -/
  | map (loc : Span) (name : Option String)
  /-- The comments that stand before this place. -/
  | comments (loc : Span)
deriving DecidableEq, Repr

/-- Pieces in a context that may forbid a bare `in` operator. -/
def Layout : Type := Bool → List Piece × Bool

namespace Layout

def empty : Layout := fun noIn => ([], noIn)

def ofPieces (ps : List Piece) : Layout := fun noIn => (ps, noIn)

def append (a b : Layout) : Layout := fun noIn =>
  let (xs, noIn) := a noIn
  let (ys, noIn) := b noIn
  (xs ++ ys, noIn)

instance : Append Layout := ⟨append⟩

instance : EmptyCollection Layout := ⟨empty⟩

def token (text : String) : Layout := ofPieces [.token text]

def raw (text : String) : Layout := ofPieces [.raw text]

def space : Layout := ofPieces [.space]

def newline : Layout := ofPieces [.newline]

def semi : Layout := ofPieces [.semi]

def map (loc : Span) : Layout := ofPieces [.map loc none]

def indented (a : Layout) : Layout := ofPieces [.indent] ++ a ++ ofPieces [.dedent]

def comma : Layout := token "," ++ space

def operator (text : String) : Layout := space ++ token text ++ space

/-- Sets whether a bare `in` operator is forbidden. -/
def setNoIn (noIn : Bool) : Layout := fun _ => ([], noIn)

/-- A layout within which a bare `in` operator is allowed. -/
def guarded (a : Layout) : Layout := fun noIn => ((a false).1, noIn)

def parens (a : Layout) : Layout := token "(" ++ guarded a ++ token ")"

def onlyIf (b : Bool) (a : Layout) : Layout := if b then a else ∅

def concat (ls : List Layout) : Layout := ls.foldr (· ++ ·) ∅

def separated (sep : Layout) : List Layout → Layout
  | [] => ∅
  | a :: rest => a ++ concat (rest.map (sep ++ ·))

def commaList (ls : List Layout) : Layout := separated comma ls

/-- Members in braces, each on a line of its own in indented output. -/
def braced (ls : List Layout) : Layout :=
  token "\x7b" ++ indented (concat (ls.map (newline ++ ·)))
    ++ onlyIf (!ls.isEmpty) newline ++ token "\x7d"

end Layout

end Laconic
