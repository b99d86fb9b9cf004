import Laconic.Token.Basic
import Laconic.Tree.Operator

/-!
# Syntax trees

A program as a tree.  Statements, expressions and patterns contain each other,
so their types are declared together.  Every node knows the stretch of source
text it comes from; a node made by a rewriting takes that of a node it stands
for, or none.

An identifier that names a variable carries the number of its symbol once the
names of the program have been resolved.
-/

namespace Laconic

/-- A name at its place. -/
structure Ident where
  loc : Span
  name : String
  /-- The symbol that the name is bound to, once resolved. -/
  symbol : Option Nat
deriving DecidableEq, Repr, Inhabited

/-- A string literal at its place. -/
structure StringLit where
  loc : Span
  value : String
  /-- The source text of a literal with a lone surrogate, which the value
  cannot hold. -/
  raw : Option String
deriving DecidableEq, Repr, Inhabited

/-- A part of a template between substitutions. -/
structure Quasi where
  loc : Span
  raw : String
  cooked : Option String
deriving DecidableEq, Repr, Inhabited

/-- The ways to declare variables. -/
inductive VarKind where
  | var
  | let
  | const
deriving DecidableEq, Repr

/-- The word that declares variables of a kind. -/
def VarKind.text : VarKind → String
  | .var => "var"
  | .let => "let"
  | .const => "const"

inductive MethodKind where
  | constructor
  | method
  | get
  | set
deriving DecidableEq, Repr

/-- A name by which modules exchange a variable. -/
inductive ModuleName where
  | ident (id : Ident)
  | str (lit : StringLit)
deriving DecidableEq, Repr, Inhabited

/-- What is imported under a local name. -/
inductive ImportSpecifier where
  | named (imported : ModuleName) (id : Ident)
  | default (id : Ident)
  | namespace (id : Ident)
deriving DecidableEq, Repr

/-- What is exported under another name. -/
structure ExportSpecifier where
  name : ModuleName
  exported : ModuleName
deriving DecidableEq, Repr

/-! ## Nodes -/

mutual

inductive Expr where
  | null (loc : Span)
  | bool (loc : Span) (value : Bool)
  | num (loc : Span) (value : Float)
  | str (lit : StringLit)
  | bigint (loc : Span) (digits : String)
  | regexp (loc : Span) (pattern flags : String)
  /-- A template; its parts stand around its expressions. -/
  | template (loc : Span) (quasis : List Quasi) (expressions : List Expr)
  | ident (id : Ident)
  | this (loc : Span)
  | super (loc : Span)
  /-- An array literal; an element may be left out. -/
  | array (loc : Span) (elements : List (Option Expr))
  | object (loc : Span) (properties : List Property)
  | function (f : Func)
  | arrow (a : Arrow)
  | class (c : ClassDef)
  | unary (loc : Span) (op : UnaryOp) (argument : Expr)
  | update (loc : Span) (op : UpdateOp) (before : Bool) (argument : Expr)
  | binary (loc : Span) (op : BinaryOp) (left right : Expr)
  | logical (loc : Span) (op : LogicalOp) (left right : Expr)
  | conditional (loc : Span) (test consequent alternate : Expr)
  /-- An assignment.  A variable or property that is assigned as a whole is
  the pattern `Pat.expr`. -/
  | assign (loc : Span) (op : AssignOp) (target : Pat) (value : Expr)
  | sequence (loc : Span) (expressions : List Expr)
  | member (loc : Span) (optional : Bool) (object : Expr) (property : PropName)
  | call (loc : Span) (optional pure : Bool) (callee : Expr) (arguments : List Expr)
  | new (loc : Span) (pure : Bool) (callee : Expr) (arguments : List Expr)
  /-- The whole of an access with `?.` links. -/
  | chain (loc : Span) (expression : Expr)
  | tagged (loc : Span) (tag : Expr) (quasiLoc : Span) (quasis : List Quasi)
    (expressions : List Expr)
  | spread (loc : Span) (argument : Expr)
  | yield (loc : Span) (delegate : Bool) (argument : Option Expr)
  | await (loc : Span) (argument : Expr)
  | importCall (loc : Span) (source : Expr) (options : Option Expr)
  | metaProperty (loc : Span) (property : MetaProperty)

/-- How a property is named.  Strings and numbers occur only where properties
are defined. -/
inductive PropName where
  | ident (id : Ident)
  | privateName (loc : Span) (name : String)
  | str (lit : StringLit)
  | num (loc : Span) (value : Float)
  | computed (e : Expr)

/-- The properties of an object literal. -/
inductive Property where
  | value (loc : Span) (key : PropName) (value : Expr)
  | getter (loc : Span) (key : PropName) (f : Func)
  | setter (loc : Span) (key : PropName) (f : Func)
  | method (loc : Span) (key : PropName) (f : Func)
  | spread (loc : Span) (argument : Expr)

/-- Functions that have a `this` of their own. -/
structure Func where
  loc : Span
  id : Option Ident
  isAsync : Bool
  isGenerator : Bool
  params : List Pat
  body : Block

/-- Functions that share the `this` around them. -/
structure Arrow where
  loc : Span
  isAsync : Bool
  params : List Pat
  body : ArrowBody

inductive ArrowBody where
  | block (b : Block)
  | expr (e : Expr)

/-- Statements in braces. -/
structure Block where
  loc : Span
  body : List Stmt

structure ClassDef where
  loc : Span
  id : Option Ident
  superClass : Option Expr
  body : List Member

inductive Member where
  | method (loc : Span) (isStatic : Bool) (kind : MethodKind) (key : PropName) (f : Func)
  | property (loc : Span) (isStatic : Bool) (key : PropName) (value : Option Expr)
  | staticBlock (loc : Span) (body : List Stmt)

/-- What a value is bound or assigned to. -/
inductive Pat where
  | ident (id : Ident)
  | array (loc : Span) (elements : List (Option Pat))
  | object (loc : Span) (properties : List PatProperty)
  | rest (loc : Span) (argument : Pat)
  | assign (loc : Span) (target : Pat) (value : Expr)
  /-- The target of an assignment, which is no declaration. -/
  | expr (e : Expr)

/-- The properties of an object pattern. -/
inductive PatProperty where
  | keyValue (loc : Span) (key : PropName) (value : Pat)
  | rest (loc : Span) (argument : Pat)

structure Declarator where
  loc : Span
  target : Pat
  init : Option Expr

structure VarDecl where
  loc : Span
  kind : VarKind
  declarators : List Declarator

/-- What runs before a `for` loop. -/
inductive ForInit where
  | none
  | decl (d : VarDecl)
  | expr (e : Expr)

/-- What each round of a loop over an object assigns. -/
inductive ForTarget where
  | decl (d : VarDecl)
  | pat (p : Pat)

/-- A clause of a `switch`; the one without a test is the default. -/
structure SwitchCase where
  loc : Span
  test : Option Expr
  body : List Stmt

structure Handler where
  loc : Span
  param : Option Pat
  body : Block

inductive Stmt where
  | block (b : Block)
  | varDecl (d : VarDecl)
  | function (f : Func)
  | class (c : ClassDef)
  | expr (loc : Span) (e : Expr)
  | if (loc : Span) (test : Expr) (consequent : Stmt) (alternate : Option Stmt)
  | for (loc : Span) (init : ForInit) (test update : Option Expr) (body : Stmt)
  | forIn (loc : Span) (target : ForTarget) (object : Expr) (body : Stmt)
  | forOf (loc : Span) (isAwait : Bool) (target : ForTarget) (object : Expr) (body : Stmt)
  | while (loc : Span) (test : Expr) (body : Stmt)
  | doWhile (loc : Span) (body : Stmt) (test : Expr)
  | switch (loc : Span) (discriminant : Expr) (cases : List SwitchCase)
  | try (loc : Span) (block : Block) (handler : Option Handler) (finalizer : Option Block)
  | return (loc : Span) (argument : Option Expr)
  | throw (loc : Span) (argument : Expr)
  | break (loc : Span) (label : Option Ident)
  | continue (loc : Span) (label : Option Ident)
  | labeled (loc : Span) (label : Ident) (body : Stmt)
  | with (loc : Span) (object : Expr) (body : Stmt)
  | debugger (loc : Span)
  | empty (loc : Span)
  /-- A string at the head of a body, by its source text. -/
  | directive (loc : Span) (raw : String)
  | importDecl (loc : Span) (specifiers : List ImportSpecifier) (source : StringLit)
  | exportNamed (loc : Span) (specifiers : List ExportSpecifier) (source : Option StringLit)
  | exportDecl (loc : Span) (declaration : Stmt)
  | exportFunction (loc : Span) (f : Func)
  | exportClass (loc : Span) (c : ClassDef)
  | exportExpr (loc : Span) (e : Expr)
  | exportAll (loc : Span) (exported : Option ModuleName) (source : StringLit)

end

/-- Whether a program is a script or a module. -/
inductive SourceKind where
  | script
  | module
deriving DecidableEq, Repr

structure Program where
  loc : Span
  kind : SourceKind
  body : List Stmt
  comments : List Comment
  shebang : Option String
  /-- The names of the texts that the program was put together from. -/
  files : List String

end Laconic
