import Laconic.Token.Basic

/-!
# Errors and warnings

Every way in which a run can fail is a cause, a value of an inductive type;
the wording stands in one function per type.  A fault of the text also has
its place and the name of the file it was found in, which is empty until
someone who knows the name attaches it.
-/

namespace Laconic

/-! ## Causes -/

/-- Why a stretch of text is no token. -/
inductive LexicalFault where
  | unterminatedComment
  | unterminatedEscape
  | unterminatedString
  | unterminatedTemplate
  | unterminatedRegexp
  | badHexEscape
  | badUnicodeEscape
  | octalEscape
  | digitEscape
  | octalLiteral
  | badNumber
  | afterNumber
  | badExponent
  | badRegexpFlags
  | badIdentifierStart
  | badIdentifierPart
  | unicodeEscapeExpected
  | strayHash
  | unexpectedChar (c : Char)
deriving DecidableEq, Repr

def LexicalFault.message : LexicalFault → String
  | .unterminatedComment => "Unterminated multiline comment"
  | .unterminatedEscape => "Unterminated escape sequence"
  | .unterminatedString => "Unterminated string constant"
  | .unterminatedTemplate => "Unterminated template"
  | .unterminatedRegexp => "Unterminated regular expression"
  | .badHexEscape => "Invalid hex-character pattern"
  | .badUnicodeEscape => "Invalid Unicode escape"
  | .octalEscape => "Legacy octal escape sequences are not allowed in strict mode"
  | .digitEscape => "\\8 and \\9 are not allowed in strict mode"
  | .octalLiteral => "Legacy octal literals are not allowed in strict mode"
  | .badNumber => "Invalid number"
  | .afterNumber => "Invalid or unexpected token"
  | .badExponent => "Invalid exponent in numeric literal"
  | .badRegexpFlags => "Invalid regular expression flags"
  | .badIdentifierStart => "Invalid identifier start character"
  | .badIdentifierPart => "Invalid identifier part character"
  | .unicodeEscapeExpected => "Expecting UnicodeEscapeSequence"
  | .strayHash => "Invalid or unexpected token '#'"
  | .unexpectedChar c => "Unexpected character '" ++ String.singleton c ++ "'"

/-- Why a sequence of tokens is no program. -/
inductive SyntaxFault where
  /-- The token cannot stand here. -/
  | unexpected (l : Lexeme)
  /-- The punctuator, or a name written as one, cannot stand here. -/
  | unexpectedText (text : String)
  | unexpectedKeyword (name : String)
  | unexpectedReservedWord (name : String)
  | unexpectedPrivateName
  | strictBinding (name : String)
  | misplacedModuleItem
  | letAsLexicalName
  | missingConstInit
  | missingPatternInit
  | loopVariableInit
  | badForTarget
  | awaitWithoutOf
  | continueNotLoop (label : String)
  | undefinedLabel (label : String)
  | duplicateLabel (label : String)
  | illegalContinue
  | illegalBreak
  | returnOutsideFunction
  | withInStrict
  | duplicateDefault
  | newlineAfterThrow
  | tryAlone
  | restParamNotLast
  | restElementNotLast
  | specialConstructor
  | badPatternTarget
  | badAssignTarget
  | badUpdateTarget
  | strictDelete
  | unaryBeforePower
  | misplacedSuper
  | metaOutsideModule
  | newImport
  | badNewTarget
  | optionalChainInNew
  | taggedOptionalChain
  | badTemplateEscape
  | redeclared (name : String)
  /-- The nesting exceeds the bound that the length of the text gives. -/
  | tooDeep
deriving Repr

/-- The wording for a token that cannot stand where it stands. -/
def Lexeme.unexpectedMessage (l : Lexeme) : String :=
  match l with
  | .endOfInput => "Unexpected end of input"
  | .identifier _ | .string .. | .privateName _ => "Unexpected " ++ l.kind.text ++ " " ++ l.text
  | .number _ | .bigint _ | .regexp .. | .template .. => "Unexpected " ++ l.kind.text
  | _ => "Unexpected token " ++ l.kind.text

def SyntaxFault.message : SyntaxFault → String
  | .unexpected l => l.unexpectedMessage
  | .unexpectedText text => "Unexpected token " ++ text
  | .unexpectedKeyword name => "Unexpected keyword " ++ name
  | .unexpectedReservedWord name => "Unexpected reserved word " ++ name
  | .unexpectedPrivateName => "Unexpected private name"
  | .strictBinding name => "Unexpected " ++ name ++ " in strict mode"
  | .misplacedModuleItem => "'import' and 'export' may only appear at the top level of a module"
  | .letAsLexicalName => "let is disallowed as a lexically bound name"
  | .missingConstInit => "Missing initializer in const declaration"
  | .missingPatternInit => "Missing initializer in destructuring declaration"
  | .loopVariableInit => "for-in/of loop variable declaration may not have an initializer"
  | .badForTarget => "Invalid left-hand side in for-loop"
  | .awaitWithoutOf => "for await requires an of clause"
  | .continueNotLoop label =>
    "Illegal continue statement: '" ++ label ++ "' does not denote an iteration statement"
  | .undefinedLabel label => "Undefined label '" ++ label ++ "'"
  | .duplicateLabel label => "Label '" ++ label ++ "' has already been declared"
  | .illegalContinue => "Illegal continue statement"
  | .illegalBreak => "Illegal break statement"
  | .returnOutsideFunction => "'return' outside of function"
  | .withInStrict => "Strict mode code may not include a with statement"
  | .duplicateDefault => "More than one default clause in switch statement"
  | .newlineAfterThrow => "Illegal newline after throw"
  | .tryAlone => "Missing catch or finally after try"
  | .restParamNotLast => "Rest parameter must be last formal parameter"
  | .restElementNotLast => "Rest element must be last element"
  | .specialConstructor => "Class constructor may not be a special method"
  | .badPatternTarget => "Invalid destructuring assignment target"
  | .badAssignTarget => "Invalid left-hand side in assignment"
  | .badUpdateTarget => "Invalid left-hand side expression in update operation"
  | .strictDelete => "Delete of an unqualified identifier in strict mode."
  | .unaryBeforePower => "Unary operator used immediately before exponentiation expression"
  | .misplacedSuper => "'super' keyword unexpected here"
  | .metaOutsideModule => "Cannot use 'import.meta' outside a module"
  | .newImport => "Cannot use new with import"
  | .badNewTarget => "Invalid new target"
  | .optionalChainInNew => "Invalid optional chain from new expression"
  | .taggedOptionalChain => "Invalid tagged template on optional chain"
  | .badTemplateEscape => "Invalid escape sequence in template"
  | .redeclared name => "Identifier '" ++ name ++ "' has already been declared"
  | .tooDeep => "Nesting too deep"

/-- Why a source map cannot be read. -/
inductive MapFault where
  | badJson
  | vlqLeftover
  | vlqOverflow
  | badSegmentSize (size : Nat)
  | badSourceReference (index : Nat)
  | badNameReference (index : Nat)
deriving DecidableEq, Repr

def MapFault.message : MapFault → String
  | .badJson => "BadJson"
  | .vlqLeftover => "VlqLeftover"
  | .vlqOverflow => "VlqOverflow"
  | .badSegmentSize size => "BadSegmentSize(" ++ Nat.repr size ++ ")"
  | .badSourceReference index => "BadSourceReference(" ++ Nat.repr index ++ ")"
  | .badNameReference index => "BadNameReference(" ++ Nat.repr index ++ ")"

/-! ## Errors -/

/-- Why a run failed. -/
inductive Error where
  | lexical (fault : LexicalFault) (pos : Position) (file : String)
  | grammar (fault : SyntaxFault) (pos : Position) (file : String)
  /-- The pattern of the property names to rename does not read. -/
  | badPropertyPattern
  | sourceMap (fault : MapFault)
deriving Repr

namespace Error

def inFile (name : String) : Error → Error
  | .lexical fault pos file => .lexical fault pos (if file.isEmpty then name else file)
  | .grammar fault pos file => .grammar fault pos (if file.isEmpty then name else file)
  | e => e

def message : Error → String
  | .lexical fault .. => fault.message
  | .grammar fault .. => fault.message
  | .badPropertyPattern => "invalid properties regex"
  | .sourceMap fault => fault.message

/-- A fault with its place, as errors are shown. -/
def located (kind message file : String) (pos : Position) : String :=
  kind ++ ": " ++ message ++ " (" ++ file ++ ":" ++ Nat.repr pos.line ++ ":"
    ++ Nat.repr pos.column ++ ")"

/-- An error as it is shown to the user. -/
def text : Error → String
  | .lexical fault pos file => located "LexicalError" fault.message file pos
  | .grammar fault pos file => located "SyntaxError" fault.message file pos
  | e@(.badPropertyPattern) => "invalid option: " ++ e.message
  | .sourceMap fault => "source map error: " ++ fault.message

end Error

/-! ## Warnings -/

/-- Something that compression did or found and the user may want to know. -/
inductive Notice where
  | unreachable
  | unusedVariable (name : String)
  | unusedFunction (name : String)
  | unusedClass (name : String)
  /-- A call with constant arguments would throw. -/
  | throws (text message : String)
deriving DecidableEq, Repr

def Notice.message : Notice → String
  | .unreachable => "Dropping unreachable code"
  | .unusedVariable name => "Dropping unused variable " ++ name
  | .unusedFunction name => "Dropping unused function " ++ name
  | .unusedClass name => "Dropping unused class " ++ name
  | .throws text message => "Error evaluating " ++ text ++ ": " ++ message

/-- A notice with its place. -/
structure Warning where
  notice : Notice
  file : String
  line : Nat
  column : Nat
deriving DecidableEq, Repr

def Warning.text (w : Warning) : String :=
  "WARN: " ++ w.notice.message ++ " [" ++ w.file ++ ":" ++ Nat.repr w.line ++ ","
    ++ Nat.repr w.column ++ "]"

end Laconic
