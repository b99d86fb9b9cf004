import Laconic.Tree.Nodes

/-!
# Changing names

One map over a tree that changes names and nothing else: those of variables,
where they are declared and where they are referred to, and those of properties,
where they are defined and where they are accessed.  It meets the names in the
order in which `Nodes` lists them.
-/

namespace Laconic

/-- How names are changed. -/
structure NameMap (m : Type → Type) [Monad m] where
  ident : Ident → m Ident := pure
  /-- The name of a property that is defined or taken apart. -/
  key : PropName → m PropName := pure
  /-- The name of a property that is accessed. -/
  access : PropName → m PropName := pure
  /-- The name of a property that is counted up or down. -/
  counted : PropName → m PropName := pure

namespace NameMap

variable {m : Type → Type} [Monad m]

/-- Changes a name that may be absent. -/
def optIdent (f : NameMap m) : Option Ident → m (Option Ident)
  | some id => return some (← f.ident id)
  | none => return none

/-- Changes the name of a function or class of its own, if it is `named` by it.  A method is
not: its name is that of a property. -/
def ownName (f : NameMap m) (named : Bool) (id : Option Ident) : m (Option Ident) :=
  if named then optIdent f id else pure id

def importSpecifier (f : NameMap m) : ImportSpecifier → m ImportSpecifier
  | .named imported id => return .named imported (← f.ident id)
  | .default id => return .default (← f.ident id)
  | .namespace id => return .namespace (← f.ident id)

def exportSpecifier (f : NameMap m) : ExportSpecifier → m ExportSpecifier
  | ⟨.ident id, exported⟩ => return ⟨.ident (← f.ident id), exported⟩
  | x => return x

mutual

/-- Changes the names in an expression. -/
def expr (f : NameMap m) : Expr → m Expr
  | .ident id => return .ident (← f.ident id)
  | .template loc qs es => return .template loc qs (← exprs f es)
  | .array loc es => return .array loc (← elements f es)
  | .object loc ps => return .object loc (← properties f ps)
  | .function fn => return .function (← func f true fn)
  | .arrow a => return .arrow (← arrow f a)
  | .class c => return .class (← classDef f c)
  | .unary loc op e => return .unary loc op (← expr f e)
  | .update loc op before (.member mloc optional o p) =>
    return .update loc op before (.member mloc optional (← expr f o) (← propName f f.counted p))
  | .update loc op before e => return .update loc op before (← expr f e)
  | .binary loc op l r => return .binary loc op (← expr f l) (← expr f r)
  | .logical loc op l r => return .logical loc op (← expr f l) (← expr f r)
  | .conditional loc t c a => return .conditional loc (← expr f t) (← expr f c) (← expr f a)
  | .assign loc op p v => return .assign loc op (← pat f p) (← expr f v)
  | .sequence loc es => return .sequence loc (← exprs f es)
  | .member loc optional o p => return .member loc optional (← expr f o) (← propName f f.access p)
  | .call loc optional pure callee es =>
    return .call loc optional pure (← expr f callee) (← exprs f es)
  | .new loc pure callee es => return .new loc pure (← expr f callee) (← exprs f es)
  | .chain loc e => return .chain loc (← expr f e)
  | .tagged loc tag quasiLoc qs es => return .tagged loc (← expr f tag) quasiLoc qs (← exprs f es)
  | .spread loc e => return .spread loc (← expr f e)
  | .yield loc delegate e => return .yield loc delegate (← optExpr f e)
  | .await loc e => return .await loc (← expr f e)
  | .importCall loc e options => return .importCall loc (← expr f e) (← optExpr f options)
  | e => return e

def optExpr (f : NameMap m) : Option Expr → m (Option Expr)
  | some e => return some (← expr f e)
  | none => return none

def exprs (f : NameMap m) : List Expr → m (List Expr)
  | [] => return []
  | e :: rest => return (← expr f e) :: (← exprs f rest)

def elements (f : NameMap m) : List (Option Expr) → m (List (Option Expr))
  | [] => return []
  | some e :: rest => return some (← expr f e) :: (← elements f rest)
  | none :: rest => return none :: (← elements f rest)

/-- Changes the name of a property by `g`, after the names in it. -/
def propName (f : NameMap m) (g : PropName → m PropName) (k : PropName) : m PropName :=
  match k with
  | .computed e => do g (.computed (← expr f e))
  | _ => g k

def properties (f : NameMap m) : List Property → m (List Property)
  | [] => return []
  | .value loc key e :: rest =>
    return .value loc (← propName f f.key key) (← expr f e) :: (← properties f rest)
  | .getter loc key fn :: rest =>
    return .getter loc (← propName f f.key key) (← func f false fn) :: (← properties f rest)
  | .setter loc key fn :: rest =>
    return .setter loc (← propName f f.key key) (← func f false fn) :: (← properties f rest)
  | .method loc key fn :: rest =>
    return .method loc (← propName f f.key key) (← func f false fn) :: (← properties f rest)
  | .spread loc e :: rest => return .spread loc (← expr f e) :: (← properties f rest)

def func (f : NameMap m) (named : Bool) : Func → m Func
  | ⟨loc, id, isAsync, isGenerator, ps, b⟩ =>
    return ⟨loc, ← ownName f named id, isAsync, isGenerator, ← pats f ps, ← block f b⟩

def arrow (f : NameMap m) : Arrow → m Arrow
  | ⟨loc, isAsync, ps, .block b⟩ => return ⟨loc, isAsync, ← pats f ps, .block (← block f b)⟩
  | ⟨loc, isAsync, ps, .expr e⟩ => return ⟨loc, isAsync, ← pats f ps, .expr (← expr f e)⟩

def block (f : NameMap m) : Block → m Block
  | ⟨loc, body⟩ => return ⟨loc, ← stmts f body⟩

def classDef (f : NameMap m) : ClassDef → m ClassDef
  | ⟨loc, id, superClass, body⟩ =>
    return ⟨loc, ← optIdent f id, ← optExpr f superClass, ← members f body⟩

def members (f : NameMap m) : List Member → m (List Member)
  | [] => return []
  | .method loc isStatic kind key fn :: rest =>
    return .method loc isStatic kind (← propName f f.key key) (← func f false fn)
      :: (← members f rest)
  | .property loc isStatic key e :: rest =>
    return .property loc isStatic (← propName f f.key key) (← optExpr f e) :: (← members f rest)
  | .staticBlock loc body :: rest =>
    return .staticBlock loc (← stmts f body) :: (← members f rest)

def pat (f : NameMap m) : Pat → m Pat
  | .ident id => return .ident (← f.ident id)
  | .array loc ps => return .array loc (← patElements f ps)
  | .object loc ps => return .object loc (← patProperties f ps)
  | .rest loc p => return .rest loc (← pat f p)
  | .assign loc p e => return .assign loc (← pat f p) (← expr f e)
  | .expr e => return .expr (← expr f e)

def optPat (f : NameMap m) : Option Pat → m (Option Pat)
  | some p => return some (← pat f p)
  | none => return none

def pats (f : NameMap m) : List Pat → m (List Pat)
  | [] => return []
  | p :: rest => return (← pat f p) :: (← pats f rest)

def patElements (f : NameMap m) : List (Option Pat) → m (List (Option Pat))
  | [] => return []
  | some p :: rest => return some (← pat f p) :: (← patElements f rest)
  | none :: rest => return none :: (← patElements f rest)

def patProperties (f : NameMap m) : List PatProperty → m (List PatProperty)
  | [] => return []
  | .keyValue loc key p :: rest =>
    return .keyValue loc (← propName f f.key key) (← pat f p) :: (← patProperties f rest)
  | .rest loc p :: rest => return .rest loc (← pat f p) :: (← patProperties f rest)

def varDecl (f : NameMap m) : VarDecl → m VarDecl
  | ⟨loc, kind, ds⟩ => return ⟨loc, kind, ← declarators f ds⟩

def declarators (f : NameMap m) : List Declarator → m (List Declarator)
  | [] => return []
  | ⟨loc, p, e⟩ :: rest => return ⟨loc, ← pat f p, ← optExpr f e⟩ :: (← declarators f rest)

def forInit (f : NameMap m) : ForInit → m ForInit
  | .none => return .none
  | .decl d => return .decl (← varDecl f d)
  | .expr e => return .expr (← expr f e)

def forTarget (f : NameMap m) : ForTarget → m ForTarget
  | .decl d => return .decl (← varDecl f d)
  | .pat p => return .pat (← pat f p)

def switchCases (f : NameMap m) : List SwitchCase → m (List SwitchCase)
  | [] => return []
  | ⟨loc, test, body⟩ :: rest =>
    return ⟨loc, ← optExpr f test, ← stmts f body⟩ :: (← switchCases f rest)

def handler (f : NameMap m) : Option Handler → m (Option Handler)
  | none => return none
  | some ⟨loc, param, b⟩ => return some ⟨loc, ← optPat f param, ← block f b⟩

def optBlock (f : NameMap m) : Option Block → m (Option Block)
  | none => return none
  | some b => return some (← block f b)

def stmt (f : NameMap m) : Stmt → m Stmt
  | .block b => return .block (← block f b)
  | .varDecl d => return .varDecl (← varDecl f d)
  | .function fn => return .function (← func f true fn)
  | .class c => return .class (← classDef f c)
  | .expr loc e => return .expr loc (← expr f e)
  | .if loc test c a => return .if loc (← expr f test) (← stmt f c) (← optStmt f a)
  | .for loc init test update body =>
    return .for loc (← forInit f init) (← optExpr f test) (← optExpr f update) (← stmt f body)
  | .forIn loc target e body =>
    return .forIn loc (← forTarget f target) (← expr f e) (← stmt f body)
  | .forOf loc isAwait target e body =>
    return .forOf loc isAwait (← forTarget f target) (← expr f e) (← stmt f body)
  | .while loc test body => return .while loc (← expr f test) (← stmt f body)
  | .doWhile loc body test => return .doWhile loc (← stmt f body) (← expr f test)
  | .switch loc e cases => return .switch loc (← expr f e) (← switchCases f cases)
  | .try loc b h final => return .try loc (← block f b) (← handler f h) (← optBlock f final)
  | .return loc e => return .return loc (← optExpr f e)
  | .throw loc e => return .throw loc (← expr f e)
  | .labeled loc label body => return .labeled loc label (← stmt f body)
  | .with loc e body => return .with loc (← expr f e) (← stmt f body)
  | .importDecl loc specifiers source =>
    return .importDecl loc (← specifiers.mapM (importSpecifier f)) source
  | .exportNamed loc specifiers none =>
    return .exportNamed loc (← specifiers.mapM (exportSpecifier f)) none
  | .exportDecl loc s => return .exportDecl loc (← stmt f s)
  | .exportFunction loc fn => return .exportFunction loc (← func f true fn)
  | .exportClass loc c => return .exportClass loc (← classDef f c)
  | .exportExpr loc e => return .exportExpr loc (← expr f e)
  | s => return s

def optStmt (f : NameMap m) : Option Stmt → m (Option Stmt)
  | some s => return some (← stmt f s)
  | none => return none

def stmts (f : NameMap m) : List Stmt → m (List Stmt)
  | [] => return []
  | s :: rest => return (← stmt f s) :: (← stmts f rest)

end

end NameMap

/-- Changes the names in a program. -/
def NameMap.program {m : Type → Type} [Monad m] (f : NameMap m) (p : Program) : m Program :=
  return { p with body := ← NameMap.stmts f p.body }

/-- Changes each name of a variable, with an effect. -/
def Program.mapIdentsM {m : Type → Type} [Monad m] (f : Ident → m Ident) (p : Program) :
    m Program :=
  NameMap.program { ident := f } p

/-- Changes each name of a variable. -/
def Program.mapIdents (f : Ident → Ident) (p : Program) : Program :=
  Id.run (p.mapIdentsM fun id => pure (f id))

end Laconic
