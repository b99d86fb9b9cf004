import Laconic.Tree.Access

/-!
# Scopes and symbols

A program has a tree of scopes, and in each scope some names are declared.
Every name of a variable stands for one symbol: the one that the nearest scope
around it declares under that name, or a global one if no scope does.

Scopes and symbols have numbers, scopes in the order of their first tokens.
-/

namespace Laconic

/-! ## Kinds -/

inductive ScopeKind where
  | global
  | module
  /-- A function with its parameters, or a static block of a class. -/
  | function
  | arrow
  | block
  | catch
  | «class»
  /-- The body of a `with` statement. -/
  | with
deriving DecidableEq, Repr

namespace ScopeKind

/-- Whether `var` declarations inside a scope belong to it. -/
def isVarScope : ScopeKind → Bool
  | .global | .module | .function | .arrow => true
  | _ => false

def isFunction : ScopeKind → Bool
  | .function | .arrow => true
  | _ => false

end ScopeKind

/-- What declares a symbol. -/
inductive BindingKind where
  | var
  | let
  | const
  | function
  | «class»
  | param
  | import
  | catchParam
  /-- The name of a function expression, known inside it. -/
  | functionName
  /-- The name of a class expression, known inside it. -/
  | className
  /-- The arguments of a function as an object. -/
  | arguments
  /-- Nothing in the program. -/
  | global
deriving DecidableEq, Repr

namespace BindingKind

/-- Whether no other declaration of the name may stand beside it. -/
def isLexical : BindingKind → Bool
  | .let | .const | .class | .import => true
  | _ => false

/-- Whether a declaration of the name takes its place. -/
def isShadowable : BindingKind → Bool
  | .functionName | .className | .arguments => true
  | _ => false

/-- The kind of symbol that a declaration of variables declares. -/
def ofVarKind : VarKind → BindingKind
  | .var => .var
  | .let => .let
  | .const => .const

end BindingKind

/-! ## Names in order -/

/-- Names with numbers, in the order in which they were added. -/
abbrev NameTable := List (String × Nat)

namespace NameTable

def find? (t : NameTable) (name : String) : Option Nat := t.lookup name

/-- Gives a name a number.  A name that has one keeps its place. -/
def insert (t : NameTable) (name : String) (n : Nat) : NameTable :=
  if (find? t name).isSome then t.map fun e => if e.1 == name then (name, n) else e
  else t ++ [(name, n)]

end NameTable

/-! ## Symbols and scopes -/

structure Symbol where
  name : String
  /-- The scope that declares it; the outermost one for a global symbol. -/
  scope : Nat
  kind : BindingKind
  declarations : List Span
  /-- Where it is read. -/
  references : List Span
  /-- How often it is written, but for the values in its declarations. -/
  assignments : Nat
  exported : Bool
  /-- Whether no scope declares it. -/
  undeclared : Bool
  /-- Whether a function inside the declaring scope refers to it. -/
  escaped : Bool
  /-- The one value it is known to have. -/
  fixed : Option Expr
  /-- The name it is to get. -/
  newName : Option String

namespace Symbol

def isReferenced (s : Symbol) : Bool := !s.references.isEmpty

def outputName (s : Symbol) : String := s.newName.getD s.name

end Symbol

structure Scope where
  kind : ScopeKind
  parent : Option Nat
  children : List Nat
  names : NameTable
  /-- The symbols that are referred to here or further in and declared here or
  further out. -/
  enclosed : List Nat
  usesEval : Bool
  usesWith : Bool
  usesArguments : Bool
  usesThis : Bool
  strict : Bool
  /-- Whether the names of the scope must stay, since `eval` or `with` is used
  here or further in. -/
  pinned : Bool
  loc : Span

/-- The scopes and symbols of a program. -/
structure ScopeTree where
  scopes : Array Scope := #[]
  symbols : Array Symbol := #[]
  globals : NameTable := []

namespace ScopeTree

def root : Nat := 0

def modifyScope (t : ScopeTree) (id : Nat) (f : Scope → Scope) : ScopeTree :=
  { t with scopes := t.scopes.modify id f }

def modifySymbol (t : ScopeTree) (id : Nat) (f : Symbol → Symbol) : ScopeTree :=
  { t with symbols := t.symbols.modify id f }

def symbolOf? (t : ScopeTree) (id : Ident) : Option Symbol := id.symbol.bind (t.symbols[·]?)

/-- A scope and the scopes around it, from the inside out.  A scope has a larger
number than the one around it, so there are at most `bound` of them. -/
def ancestorsWithin (t : ScopeTree) : Nat → Nat → List Nat
  | 0, _ => []
  | bound + 1, id =>
    match t.scopes[id]? with
    | some s =>
      match s.parent with
      | some parent => id :: ancestorsWithin t bound parent
      | none => [id]
    | none => []

/-- A scope and the scopes around it, from the inside out. -/
def ancestors (t : ScopeTree) (id : Nat) : List Nat := t.ancestorsWithin t.scopes.size id

def declared? (t : ScopeTree) (name : String) (id : Nat) : Option Nat :=
  t.scopes[id]?.bind fun s => s.names.find? name

/-- The symbol that a name stands for in a scope, if one is declared. -/
def lookup? (t : ScopeTree) (id : Nat) (name : String) : Option Nat :=
  (t.ancestors id).findSome? (t.declared? name)

def isVarScope (t : ScopeTree) (id : Nat) : Bool := t.scopes[id]?.any (·.kind.isVarScope)

def varScope (t : ScopeTree) (id : Nat) : Nat :=
  let up := t.ancestors id
  (up.find? t.isVarScope).getD (up.getLastD id)

/-- Whether a symbol is declared in the outermost scope or nowhere. -/
def isToplevel (t : ScopeTree) (symbol : Nat) : Bool :=
  t.symbols[symbol]?.any fun s => s.undeclared || s.scope == root

/-- Whether a symbol is declared in a scope whose names must stay. -/
def isPinned (t : ScopeTree) (symbol : Nat) : Bool :=
  t.symbols[symbol]?.any fun s => t.scopes[s.scope]?.any (·.pinned)

end ScopeTree

end Laconic
