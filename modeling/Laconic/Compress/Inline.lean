import Laconic.Compress.Basic
import Laconic.Tree.Nodes

/-!
# Bodies in the place of calls

A call of a function without parameters that is used nowhere else is replaced by
what the function does, if that is a list of expressions with perhaps a result,
and if every name in it means the same at the place of the call.
-/

namespace Laconic

namespace Compressor

def declarationCount (c : Compressor) (name : String) : Nat :=
  c.tree.symbols.countP fun s => !s.undeclared && s.name == name

/-- Whether a name in a function means the same wherever the body is moved: it is
declared inside, or it is the only one of its name. -/
def isPortable (c : Compressor) (within : Span) (id : Ident) : Bool :=
  match c.tree.symbolOf? id with
  | none => false
  | some s =>
    if s.undeclared then c.declarationCount id.name == 0
    else
      c.tree.scopes[s.scope]?.any (fun scope => within.covers scope.loc)
        || c.declarationCount id.name == 1

/-- Whether a node does not hinder moving the function around it. -/
def isPortableNode (c : Compressor) (within : Span) : Node → Bool
  | .ident id => c.isPortable within id
  | .expr (.metaProperty ..) => false
  | _ => true

end Compressor

/-- The expressions that statements consist of, with a result at the end. -/
def bodyParts (loc : Span) : List Stmt → Option (List Expr)
  | [] => some [.undefined loc]
  | .empty _ :: rest => bodyParts loc rest
  | .expr _ e :: rest => (bodyParts loc rest).map (e :: ·)
  | [.return _ value] => some [value.getD (.undefined loc)]
  | _ => none

/-- Whether a function can be replaced by its body, as far as its form goes. -/
def Func.isPlain (f : Func) : Bool :=
  f.id.isNone && !f.isAsync && !f.isGenerator && f.params.isEmpty
    && f.body.body.all fun s => s.directive?.isNone

namespace Compressor

def fixedFunction? (s : Symbol) : Option Func :=
  match s.fixed with
  | some (.function f) => some f
  | _ => none

/-- What a call of a name can be replaced by, with the symbol of the function.
Functions in `inlining` are being expanded already. -/
def inlineCall? (c : Compressor) (inlining : List Nat) (loc : Span) (callee : Ident) :
    Option (Nat × Expr) := do
  let id ← callee.symbol
  guard (!inlining.contains id)
  let s ← c.tree.symbols[id]?
  guard (s.references.length == 1)
  let f ← fixedFunction? s
  guard (f.isPlain && !f.loc.covers loc)
  let scope ← c.tree.scopes.find? fun scope => scope.kind == .function && scope.loc == f.loc
  guard (!scope.usesThis && !scope.usesArguments && !scope.pinned)
  guard ((Nodes.func f).all (c.isPortableNode f.loc))
  let parts ← bodyParts loc f.body.body
  return (id, .mkSequence parts)

end Compressor

end Laconic
