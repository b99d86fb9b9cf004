/-!
# White space and line ends

Two classes of blank characters are in use.  Between tokens stand the
*white space* characters of the language, among them the line terminators.
The string operations trim the characters of the Unicode property
`White_Space`, which has the next-line character and lacks the byte order
mark.
-/

namespace Laconic

def isLineEnd (c : Char) : Bool :=
  c == '\n' || c == '\r' || c == '\u2028' || c == '\u2029'

/-- The characters that may stand between tokens. -/
def isWhiteSpace (c : Char) : Bool :=
  c == '\t' || c == '\x0b' || c == '\x0c' || c == ' ' || c == '\u00a0' || c == '\ufeff'
    || c == '\u1680' || ('\u2000' ≤ c && c ≤ '\u200a') || c == '\u202f' || c == '\u205f'
    || c == '\u3000' || isLineEnd c

/-- The characters of the property `White_Space`. -/
def isBlank (c : Char) : Bool :=
  ('\t' ≤ c && c ≤ '\r') || c == ' ' || c == '\u0085' || c == '\u00a0' || c == '\u1680'
    || ('\u2000' ≤ c && c ≤ '\u200a') || c == '\u2028' || c == '\u2029' || c == '\u202f'
    || c == '\u205f' || c == '\u3000'

/-- The text without the leading and trailing characters of a class. -/
def trimChars (p : Char → Bool) (s : String) : String :=
  String.ofList (((s.toList.dropWhile p).reverse.dropWhile p).reverse)

theorem isWhiteSpace_of_isLineEnd {c : Char} (h : isLineEnd c = true) : isWhiteSpace c = true := by
  simp [isWhiteSpace, h]

end Laconic
