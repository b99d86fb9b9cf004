import Laconic.Scope.Basic

/-!
# What a program says about names

Walking through a program from its first token to its last, one enters and
leaves scopes and meets declarations of names and references to them.  The list
of these events is all that the resolution of names looks at.

The identifiers of the events are those of the tree, in the order in which
`Nodes` lists them.
-/

namespace Laconic

/-- What a reference does with a variable. -/
inductive Access where
  | read
  | write
  | readWrite
deriving DecidableEq, Repr

/-- What is met on the way through a program. -/
inductive ScopeEvent where
  /-- A scope begins; `strict` says whether it makes itself strict. -/
  | enter (kind : ScopeKind) (loc : Span) (strict : Bool)
  | leave
  /-- A name is declared.  The flags say whether it is exported there, and
  whether it is assigned anew in each round of a loop. -/
  | declare (id : Ident) (kind : BindingKind) (exported loop : Bool)
  | refer (id : Ident) (access : Access) (exported : Bool)
  | this

namespace ScopeEvent

def ident? : ScopeEvent → Option Ident
  | .declare id .. | .refer id .. => some id
  | _ => none

def within (kind : ScopeKind) (loc : Span) (strict : Bool) (inner : List ScopeEvent) :
    List ScopeEvent :=
  .enter kind loc strict :: inner ++ [.leave]

/-- The declaration of a name that may be absent. -/
def optDeclare (id : Option Ident) (kind : BindingKind) (exported : Bool) : List ScopeEvent :=
  match id with
  | some id => [.declare id kind exported false]
  | none => []

/-- Whether a declaration is one of the block around it only. -/
def isLexicalDecl (d : VarDecl) : Bool := d.kind != .var

/-- Whether what runs before a loop declares names for the loop. -/
def isLexicalInit : ForInit → Bool
  | .decl d => isLexicalDecl d
  | _ => false

/-- Whether what each round assigns is declared for the loop. -/
def isLexicalTarget : ForTarget → Bool
  | .decl d => isLexicalDecl d
  | .pat _ => false

/-- The events of a loop, in a scope of its own if its head declares names for
it. -/
def loopScope (lexical : Bool) (loc : Span) (inner : List ScopeEvent) : List ScopeEvent :=
  if lexical then within .block loc false inner else inner

/-- The declaration of an imported name. -/
def importSpecifier : ImportSpecifier → ScopeEvent
  | .named _ id | .default id | .namespace id => .declare id .import false false

/-- The reference to an exported name. -/
def exportSpecifier (x : ExportSpecifier) : List ScopeEvent :=
  match x.name with
  | .ident id => [.refer id .read true]
  | .str _ => []

def usesStrict (body : List Stmt) : Bool := hasDirective body "use strict"

def assignAccess : AssignOp → Access
  | .plain => .write
  | _ => .readWrite

mutual

/-- The events of an expression.  The flag says whether the names of function
expressions and caught exceptions belong to the function around them. -/
def expr (ie8 : Bool) : Expr → List ScopeEvent
  | .this _ => [.this]
  | .ident id => [.refer id .read false]
  | .template _ _ es => exprs ie8 es
  | .array _ es => elements ie8 es
  | .object _ ps => properties ie8 ps
  | .function f =>
    if ie8 then optDeclare f.id .var false ++ func ie8 none f else func ie8 f.id f
  | .arrow a => arrow ie8 a
  | .class c => classDef ie8 c.id c
  | .unary _ _ e | .chain _ e | .spread _ e | .await _ e => expr ie8 e
  | .update _ _ _ (.ident id) => [.refer id .readWrite false]
  | .update _ _ _ e => expr ie8 e
  | .binary _ _ l r | .logical _ _ l r => expr ie8 l ++ expr ie8 r
  | .conditional _ t c a => expr ie8 t ++ expr ie8 c ++ expr ie8 a
  | .assign _ op (.expr (.ident id)) v => .refer id (assignAccess op) false :: expr ie8 v
  | .assign _ _ (.expr e) v => expr ie8 e ++ expr ie8 v
  | .assign _ _ p v => targetPat ie8 p ++ expr ie8 v
  | .sequence _ es => exprs ie8 es
  | .member _ _ o p => expr ie8 o ++ propName ie8 p
  | .call _ _ _ e es | .new _ _ e es | .tagged _ e _ _ es => expr ie8 e ++ exprs ie8 es
  | .yield _ _ e => optExpr ie8 e
  | .importCall _ e options => expr ie8 e ++ optExpr ie8 options
  | _ => []

def optExpr (ie8 : Bool) : Option Expr → List ScopeEvent
  | some e => expr ie8 e
  | none => []

def exprs (ie8 : Bool) : List Expr → List ScopeEvent
  | [] => []
  | e :: rest => expr ie8 e ++ exprs ie8 rest

def elements (ie8 : Bool) : List (Option Expr) → List ScopeEvent
  | [] => []
  | some e :: rest => expr ie8 e ++ elements ie8 rest
  | none :: rest => elements ie8 rest

def propName (ie8 : Bool) : PropName → List ScopeEvent
  | .computed e => expr ie8 e
  | _ => []

def properties (ie8 : Bool) : List Property → List ScopeEvent
  | [] => []
  | .value _ key e :: rest => propName ie8 key ++ expr ie8 e ++ properties ie8 rest
  | .getter _ key f :: rest | .setter _ key f :: rest | .method _ key f :: rest =>
    propName ie8 key ++ func ie8 none f ++ properties ie8 rest
  | .spread _ e :: rest => expr ie8 e ++ properties ie8 rest

def func (ie8 : Bool) (name : Option Ident) : Func → List ScopeEvent
  | ⟨loc, _, _, _, ps, ⟨_, body⟩⟩ =>
    within .function loc (usesStrict body)
      (optDeclare name .functionName false ++ params ie8 ps ++ stmts ie8 body)

def arrow (ie8 : Bool) : Arrow → List ScopeEvent
  | ⟨loc, _, ps, .block ⟨_, body⟩⟩ => within .arrow loc false (params ie8 ps ++ stmts ie8 body)
  | ⟨loc, _, ps, .expr e⟩ => within .arrow loc false (params ie8 ps ++ expr ie8 e)

def classDef (ie8 : Bool) (name : Option Ident) : ClassDef → List ScopeEvent
  | ⟨loc, _, superClass, body⟩ =>
    within .class loc true
      (optDeclare name .className false ++ optExpr ie8 superClass ++ members ie8 body)

def members (ie8 : Bool) : List Member → List ScopeEvent
  | [] => []
  | .method _ _ _ key f :: rest => propName ie8 key ++ func ie8 none f ++ members ie8 rest
  | .property _ _ key e :: rest => propName ie8 key ++ optExpr ie8 e ++ members ie8 rest
  | .staticBlock loc body :: rest =>
    within .function loc true (stmts ie8 body) ++ members ie8 rest

/-- The events of a pattern that declares names. -/
def bindingPat (ie8 : Bool) (kind : BindingKind) (exported loop : Bool) : Pat → List ScopeEvent
  | .ident id => [.declare id kind exported loop]
  | .array _ ps => bindingElements ie8 kind exported loop ps
  | .object _ ps => bindingProperties ie8 kind exported loop ps
  | .rest _ p => bindingPat ie8 kind exported loop p
  | .assign _ p e => bindingPat ie8 kind exported loop p ++ expr ie8 e
  | .expr e => expr ie8 e

def bindingElements (ie8 : Bool) (kind : BindingKind) (exported loop : Bool) :
    List (Option Pat) → List ScopeEvent
  | [] => []
  | some p :: rest =>
    bindingPat ie8 kind exported loop p ++ bindingElements ie8 kind exported loop rest
  | none :: rest => bindingElements ie8 kind exported loop rest

def bindingProperties (ie8 : Bool) (kind : BindingKind) (exported loop : Bool) :
    List PatProperty → List ScopeEvent
  | [] => []
  | .keyValue _ key p :: rest =>
    propName ie8 key ++ bindingPat ie8 kind exported loop p
      ++ bindingProperties ie8 kind exported loop rest
  | .rest _ p :: rest =>
    bindingPat ie8 kind exported loop p ++ bindingProperties ie8 kind exported loop rest

def params (ie8 : Bool) : List Pat → List ScopeEvent
  | [] => []
  | p :: rest => bindingPat ie8 .param false false p ++ params ie8 rest

/-- The events of a pattern that is assigned. -/
def targetPat (ie8 : Bool) : Pat → List ScopeEvent
  | .ident id => [.refer id .write false]
  | .array _ ps => targetElements ie8 ps
  | .object _ ps => targetProperties ie8 ps
  | .rest _ p => targetPat ie8 p
  | .assign _ p e => targetPat ie8 p ++ expr ie8 e
  | .expr e => expr ie8 e

def targetElements (ie8 : Bool) : List (Option Pat) → List ScopeEvent
  | [] => []
  | some p :: rest => targetPat ie8 p ++ targetElements ie8 rest
  | none :: rest => targetElements ie8 rest

def targetProperties (ie8 : Bool) : List PatProperty → List ScopeEvent
  | [] => []
  | .keyValue _ key p :: rest => propName ie8 key ++ targetPat ie8 p ++ targetProperties ie8 rest
  | .rest _ p :: rest => targetPat ie8 p ++ targetProperties ie8 rest

def varDecl (ie8 exported loop : Bool) : VarDecl → List ScopeEvent
  | ⟨_, kind, ds⟩ => declarators ie8 (.ofVarKind kind) exported loop ds

def declarators (ie8 : Bool) (kind : BindingKind) (exported loop : Bool) :
    List Declarator → List ScopeEvent
  | [] => []
  | ⟨_, p, e⟩ :: rest =>
    bindingPat ie8 kind exported loop p ++ optExpr ie8 e
      ++ declarators ie8 kind exported loop rest

def forInit (ie8 : Bool) : ForInit → List ScopeEvent
  | .none => []
  | .decl d => varDecl ie8 false false d
  | .expr e => expr ie8 e

def forTarget (ie8 : Bool) : ForTarget → List ScopeEvent
  | .decl d => varDecl ie8 false true d
  | .pat p => targetPat ie8 p

def switchCases (ie8 : Bool) : List SwitchCase → List ScopeEvent
  | [] => []
  | ⟨_, test, body⟩ :: rest => optExpr ie8 test ++ stmts ie8 body ++ switchCases ie8 rest

def block (ie8 : Bool) : Block → List ScopeEvent
  | ⟨loc, body⟩ => within .block loc false (stmts ie8 body)

def handler (ie8 : Bool) : Option Handler → List ScopeEvent
  | none => []
  | some ⟨loc, param, ⟨_, body⟩⟩ =>
    within .catch loc false (optParam ie8 param ++ stmts ie8 body)

def optParam (ie8 : Bool) : Option Pat → List ScopeEvent
  | none => []
  | some p => bindingPat ie8 (if ie8 then .var else .catchParam) false false p

def optBlock (ie8 : Bool) : Option Block → List ScopeEvent
  | none => []
  | some b => block ie8 b

/-- The events of a statement; the flag says whether what it declares is
exported. -/
def stmt (ie8 exported : Bool) : Stmt → List ScopeEvent
  | .block b => block ie8 b
  | .varDecl d => varDecl ie8 exported false d
  | .function f => optDeclare f.id .function exported ++ func ie8 none f
  | .class c => optDeclare c.id .class exported ++ classDef ie8 none c
  | .expr _ e | .throw _ e | .exportExpr _ e => expr ie8 e
  | .if _ test c a => expr ie8 test ++ stmt ie8 false c ++ optStmt ie8 a
  | .for loc init test update body =>
    loopScope (isLexicalInit init) loc
      (forInit ie8 init ++ optExpr ie8 test ++ optExpr ie8 update ++ stmt ie8 false body)
  | .forIn loc target e body | .forOf loc _ target e body =>
    loopScope (isLexicalTarget target) loc
      (forTarget ie8 target ++ expr ie8 e ++ stmt ie8 false body)
  | .while _ test body => expr ie8 test ++ stmt ie8 false body
  | .doWhile _ body test => stmt ie8 false body ++ expr ie8 test
  | .switch loc e cases => expr ie8 e ++ within .block loc false (switchCases ie8 cases)
  | .try _ b h f => block ie8 b ++ handler ie8 h ++ optBlock ie8 f
  | .return _ e => optExpr ie8 e
  | .labeled _ _ body => stmt ie8 false body
  | .with loc e body => expr ie8 e ++ within .with loc false (stmt ie8 false body)
  | .importDecl _ specifiers _ => specifiers.map importSpecifier
  | .exportNamed _ specifiers none => specifiers.flatMap exportSpecifier
  | .exportDecl _ s => stmt ie8 true s
  | .exportFunction _ f => optDeclare f.id .function true ++ func ie8 none f
  | .exportClass _ c => optDeclare c.id .class true ++ classDef ie8 none c
  | _ => []

def optStmt (ie8 : Bool) : Option Stmt → List ScopeEvent
  | some s => stmt ie8 false s
  | none => []

def stmts (ie8 : Bool) : List Stmt → List ScopeEvent
  | [] => []
  | s :: rest => stmt ie8 false s ++ stmts ie8 rest

end

end ScopeEvent

/-- What a program says about names. -/
def Program.scopeEvents (ie8 : Bool) (p : Program) : List ScopeEvent :=
  let isModule := p.kind == .module
  ScopeEvent.within (if isModule then .module else .global) p.loc
    (isModule || ScopeEvent.usesStrict p.body) (ScopeEvent.stmts ie8 p.body)

end Laconic
