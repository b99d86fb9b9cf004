import Laconic.Tree.Access

/-!
# The nodes of a tree in order

`nodes` lists the nodes of a tree, each before its parts and the parts in the
order of the source text.  What an analysis asks of every node is then a fold or
a filter over a list.

Property names and labels are no identifiers in this sense: the list has an
`ident` only where a variable is declared or referred to.
-/

namespace Laconic

/-- What a list of statements is the body of. -/
inductive BodyKind where
  | program
  | function
  | block
  | case
  | staticBlock
deriving DecidableEq, Repr

inductive Node where
  | stmt (s : Stmt)
  | expr (e : Expr)
  | pat (p : Pat)
  | func (f : Func)
  | arrow (a : Arrow)
  | class (c : ClassDef)
  /-- The name of a property that is defined or taken apart. -/
  | key (k : PropName)
  /-- A list of statements with its role. -/
  | body (kind : BodyKind) (list : List Stmt)
  | ident (id : Ident)

namespace Nodes

def optIdent : Option Ident → List Node
  | some id => [.ident id]
  | none => []

/-- The local name of an import. -/
def importSpecifier : ImportSpecifier → Node
  | .named _ id | .default id | .namespace id => .ident id

/-- The local name of an export. -/
def exportSpecifier (x : ExportSpecifier) : List Node :=
  match x.name with
  | .ident id => [.ident id]
  | .str _ => []

mutual

def expr : Expr → List Node
  | .ident id => [.expr (.ident id), .ident id]
  | .template loc qs es => .expr (.template loc qs es) :: exprs es
  | .array loc es => .expr (.array loc es) :: elements es
  | .object loc ps => .expr (.object loc ps) :: properties ps
  | .function f => .expr (.function f) :: func f
  | .arrow a => .expr (.arrow a) :: arrow a
  | .class c => .expr (.class c) :: classDef c
  | .unary loc op e => .expr (.unary loc op e) :: expr e
  | .update loc op before e => .expr (.update loc op before e) :: expr e
  | .binary loc op l r => .expr (.binary loc op l r) :: (expr l ++ expr r)
  | .logical loc op l r => .expr (.logical loc op l r) :: (expr l ++ expr r)
  | .conditional loc t c a => .expr (.conditional loc t c a) :: (expr t ++ expr c ++ expr a)
  | .assign loc op (.expr e) v => .expr (.assign loc op (.expr e) v) :: (expr e ++ expr v)
  | .assign loc op p v => .expr (.assign loc op p v) :: (pat p ++ expr v)
  | .sequence loc es => .expr (.sequence loc es) :: exprs es
  | .member loc optional o p => .expr (.member loc optional o p) :: (expr o ++ member p)
  | .call loc optional pure callee es =>
    .expr (.call loc optional pure callee es) :: (expr callee ++ exprs es)
  | .new loc pure callee es => .expr (.new loc pure callee es) :: (expr callee ++ exprs es)
  | .chain loc e => .expr (.chain loc e) :: expr e
  | .tagged loc tag quasiLoc qs es =>
    .expr (.tagged loc tag quasiLoc qs es) :: (expr tag ++ exprs es)
  | .spread loc e => .expr (.spread loc e) :: expr e
  | .yield loc delegate e => .expr (.yield loc delegate e) :: optExpr e
  | .await loc e => .expr (.await loc e) :: expr e
  | .importCall loc e options => .expr (.importCall loc e options) :: (expr e ++ optExpr options)
  | e => [.expr e]

def optExpr : Option Expr → List Node
  | some e => expr e
  | none => []

def exprs : List Expr → List Node
  | [] => []
  | e :: rest => expr e ++ exprs rest

def elements : List (Option Expr) → List Node
  | [] => []
  | some e :: rest => expr e ++ elements rest
  | none :: rest => elements rest

def member : PropName → List Node
  | .computed e => expr e
  | _ => []

def propName : PropName → List Node
  | .computed e => .key (.computed e) :: expr e
  | k => [.key k]

def properties : List Property → List Node
  | [] => []
  | .value _ key e :: rest => propName key ++ expr e ++ properties rest
  | .getter _ key f :: rest => propName key ++ func f ++ properties rest
  | .setter _ key f :: rest => propName key ++ func f ++ properties rest
  | .method _ key f :: rest => propName key ++ func f ++ properties rest
  | .spread _ e :: rest => expr e ++ properties rest

def func : Func → List Node
  | ⟨loc, id, isAsync, isGenerator, ps, ⟨bodyLoc, body⟩⟩ =>
    .func ⟨loc, id, isAsync, isGenerator, ps, ⟨bodyLoc, body⟩⟩
      :: (optIdent id ++ pats ps ++ .body .function body :: stmts body)

def arrow : Arrow → List Node
  | ⟨loc, isAsync, ps, .block ⟨bodyLoc, body⟩⟩ =>
    .arrow ⟨loc, isAsync, ps, .block ⟨bodyLoc, body⟩⟩
      :: (pats ps ++ .body .function body :: stmts body)
  | ⟨loc, isAsync, ps, .expr e⟩ => .arrow ⟨loc, isAsync, ps, .expr e⟩ :: (pats ps ++ expr e)

def block : Block → List Node
  | ⟨_, body⟩ => .body .block body :: stmts body

def classDef : ClassDef → List Node
  | ⟨loc, id, superClass, body⟩ =>
    .class ⟨loc, id, superClass, body⟩ :: (optIdent id ++ optExpr superClass ++ members body)

def members : List Member → List Node
  | [] => []
  | .method _ _ _ key f :: rest => propName key ++ func f ++ members rest
  | .property _ _ key e :: rest => propName key ++ optExpr e ++ members rest
  | .staticBlock _ body :: rest => .body .staticBlock body :: (stmts body ++ members rest)

def pat : Pat → List Node
  | .ident id => [.pat (.ident id), .ident id]
  | .array loc ps => .pat (.array loc ps) :: patElements ps
  | .object loc ps => .pat (.object loc ps) :: patProperties ps
  | .rest loc p => .pat (.rest loc p) :: pat p
  | .assign loc p e => .pat (.assign loc p e) :: (pat p ++ expr e)
  | .expr e => .pat (.expr e) :: expr e

def optPat : Option Pat → List Node
  | some p => pat p
  | none => []

def pats : List Pat → List Node
  | [] => []
  | p :: rest => pat p ++ pats rest

def patElements : List (Option Pat) → List Node
  | [] => []
  | some p :: rest => pat p ++ patElements rest
  | none :: rest => patElements rest

def patProperties : List PatProperty → List Node
  | [] => []
  | .keyValue _ key p :: rest => propName key ++ pat p ++ patProperties rest
  | .rest _ p :: rest => pat p ++ patProperties rest

def varDecl : VarDecl → List Node
  | ⟨_, _, ds⟩ => declarators ds

def declarators : List Declarator → List Node
  | [] => []
  | ⟨_, p, e⟩ :: rest => pat p ++ optExpr e ++ declarators rest

def forInit : ForInit → List Node
  | .none => []
  | .decl d => varDecl d
  | .expr e => expr e

def forTarget : ForTarget → List Node
  | .decl d => varDecl d
  | .pat p => pat p

def switchCases : List SwitchCase → List Node
  | [] => []
  | ⟨_, test, body⟩ :: rest =>
    optExpr test ++ .body .case body :: (stmts body ++ switchCases rest)

def handler : Option Handler → List Node
  | none => []
  | some ⟨_, param, body⟩ => optPat param ++ block body

def optBlock : Option Block → List Node
  | none => []
  | some b => block b

def stmt : Stmt → List Node
  | .block b => .stmt (.block b) :: block b
  | .varDecl d => .stmt (.varDecl d) :: varDecl d
  | .function f => .stmt (.function f) :: func f
  | .class c => .stmt (.class c) :: classDef c
  | .expr loc e => .stmt (.expr loc e) :: expr e
  | .if loc test c a => .stmt (.if loc test c a) :: (expr test ++ stmt c ++ optStmt a)
  | .for loc init test update body =>
    .stmt (.for loc init test update body)
      :: (forInit init ++ optExpr test ++ optExpr update ++ stmt body)
  | .forIn loc target e body =>
    .stmt (.forIn loc target e body) :: (forTarget target ++ expr e ++ stmt body)
  | .forOf loc isAwait target e body =>
    .stmt (.forOf loc isAwait target e body) :: (forTarget target ++ expr e ++ stmt body)
  | .while loc test body => .stmt (.while loc test body) :: (expr test ++ stmt body)
  | .doWhile loc body test => .stmt (.doWhile loc body test) :: (stmt body ++ expr test)
  | .switch loc e cases => .stmt (.switch loc e cases) :: (expr e ++ switchCases cases)
  | .try loc b h f => .stmt (.try loc b h f) :: (block b ++ handler h ++ optBlock f)
  | .return loc e => .stmt (.return loc e) :: optExpr e
  | .throw loc e => .stmt (.throw loc e) :: expr e
  | .labeled loc label body => .stmt (.labeled loc label body) :: stmt body
  | .with loc e body => .stmt (.with loc e body) :: (expr e ++ stmt body)
  | .importDecl loc specifiers source =>
    .stmt (.importDecl loc specifiers source) :: specifiers.map importSpecifier
  | .exportNamed loc specifiers none =>
    .stmt (.exportNamed loc specifiers none) :: specifiers.flatMap exportSpecifier
  | .exportDecl loc s => .stmt (.exportDecl loc s) :: stmt s
  | .exportFunction loc f => .stmt (.exportFunction loc f) :: func f
  | .exportClass loc c => .stmt (.exportClass loc c) :: classDef c
  | .exportExpr loc e => .stmt (.exportExpr loc e) :: expr e
  | s => [.stmt s]

def optStmt : Option Stmt → List Node
  | some s => stmt s
  | none => []

def stmts : List Stmt → List Node
  | [] => []
  | s :: rest => stmt s ++ stmts rest

end

end Nodes

def Program.nodes (p : Program) : List Node := .body .program p.body :: Nodes.stmts p.body

def Node.ident? : Node → Option Ident
  | .ident id => some id
  | _ => none

/-- Whether a node adds to the size of a tree. -/
def Node.counts : Node → Bool
  | .stmt _ | .expr _ | .pat _ | .func _ | .class _ => true
  | _ => false

/-- The size of a program: its statements, expressions, patterns, functions and
classes. -/
def Program.size (p : Program) : Nat := p.nodes.countP (·.counts)

def Program.idents (p : Program) : List Ident := p.nodes.filterMap Node.ident?

end Laconic
