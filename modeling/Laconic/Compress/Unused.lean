import Laconic.Compress.Basic
import Laconic.Tree.Rewriter

/-!
# Declarations that are not used

A variable, function or class that nothing reads is removed, if it is not
exported and nothing else can reach it.  Values with effects stay as expressions,
and an assignment to a removed variable stays as its value.
-/

namespace Laconic

namespace Unused

def symbolsOf (ids : List Ident) : List Nat := ids.filterMap (·.symbol)

/-- The symbols that a node writes otherwise than by a plain assignment. -/
def writtenBy : Node → List Nat
  | .stmt (.forIn _ (.pat p) _ _) | .stmt (.forOf _ _ (.pat p) _ _) => symbolsOf p.boundNames
  | .stmt (.forIn _ (.decl d) _ _) | .stmt (.forOf _ _ (.decl d) _ _) => symbolsOf d.boundNames
  | .expr (.update _ _ _ e) => symbolsOf e.ident?.toList
  | .expr (.assign _ op (.expr e) _) => if op == .plain then [] else symbolsOf e.ident?.toList
  | .expr (.assign _ _ p _) => symbolsOf p.boundNames
  | _ => []

/-- The symbols that a program writes otherwise than by plain assignments. -/
def writtenSymbols (p : Program) : List Nat := p.nodes.flatMap writtenBy

end Unused

/-- A compressor that knows which symbols are written otherwise than by plain
assignments. -/
structure Remover extends Compressor where
  written : List Nat

namespace Remover

def isUnused (r : Remover) (id : Ident) : Bool :=
  match id.symbol with
  | none => false
  | some n =>
    r.tree.symbols[n]?.any fun s =>
      !s.isReferenced && !s.exported && !s.undeclared && s.kind != .arguments
        && !r.tree.isPinned n && !r.written.contains n && (r.toplevel || !r.tree.isToplevel n)

def unusedName? (r : Remover) (d : Declarator) : Option Ident :=
  match d.target with
  | .ident id => if r.isUnused id then some id else none
  | _ => none

/-- The variables that stay since the last statement, and the statements so
far. -/
structure Kept where
  group : List Declarator := []
  list : List Stmt := []

/-- Ends a group of variables that stay. -/
def Kept.close (loc : Span) (kind : VarKind) (k : Kept) : List Stmt :=
  if k.group.isEmpty then k.list else k.list ++ [.varDecl ⟨loc, kind, k.group⟩]

/-- Takes one variable of a declaration. -/
def keepDeclarator (r : Remover) (loc : Span) (kind : VarKind) (k : Kept) (d : Declarator) :
    Compressing Kept := do
  match r.unusedName? d with
  | none => return { k with group := k.group ++ [d] }
  | some id =>
    r.warn (.unusedVariable id.name) id.loc
    match d.init.bind r.purity.dropUnused with
    | some e => return { group := [], list := k.close loc kind ++ [.ofExpr e] }
    | none => return k

def dropDeclarators (r : Remover) (d : VarDecl) : Compressing (Action Stmt) := do
  if d.declarators.all fun d => (r.unusedName? d).isNone then return .keep
  let k ← d.declarators.foldlM (r.keepDeclarator d.loc d.kind) {}
  let list := k.close d.loc d.kind
  return if list.isEmpty then .remove else .splice list

/-- Whether a parameter is neither read nor written, by its name or through the
arguments. -/
def isUnusedParam (r : Remover) : Pat → Bool
  | .ident id =>
    (r.tree.symbolOf? id).any fun s =>
      !s.isReferenced && s.assignments == 0
        && r.tree.scopes[s.scope]?.any fun scope => !scope.usesArguments && !scope.pinned
  | _ => false

def dropParams (r : Remover) (params : List Pat) : List Pat :=
  if r.options.keepParams then params else (params.reverse.dropWhile r.isUnusedParam).reverse

def afterStmt (r : Remover) : Stmt → Compressing (Action Stmt)
  | .varDecl d => r.dropDeclarators d
  | .function f =>
    match f.id.filter r.isUnused with
    | some id => do
      r.warn (.unusedFunction id.name) id.loc
      return .remove
    | none => return .replace (.function { f with params := r.dropParams f.params })
  | .class c =>
    match c.id.filter r.isUnused with
    | some id =>
      if r.purity.classEffects c then return .keep
      else do
        r.warn (.unusedClass id.name) id.loc
        return .remove
    | none => return .keep
  | _ => return .keep

def dropName (r : Remover) (keep : Bool) (id : Option Ident) : Option Ident :=
  if keep then id else id.filter fun id => !r.isUnused id

def afterExpr (r : Remover) : Expr → Action Expr
  | .assign _ .plain target v =>
    match target.targetIdent?.filter r.isUnused with
    | some _ => .replace v
    | none => .keep
  | .function f =>
    .replace (.function
      { f with id := r.dropName r.options.keepFunctionNames f.id, params := r.dropParams f.params })
  | .arrow a => .replace (.arrow { a with params := r.dropParams a.params })
  | .class c => .replace (.class { c with id := r.dropName r.options.keepClassNames c.id })
  | _ => .keep

def rewriter (r : Remover) : Rewriter Progress where
  afterStmt := r.afterStmt
  afterExpr e := return r.afterExpr e
  enterFunction f := return !hasDirective f.body.body "use asm"

end Remover

end Laconic
