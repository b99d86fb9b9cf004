import Laconic.Scope.Resolve

/-!
# Variables that have one value

A symbol is fixed if it is bound once, to a literal constant or a function, and
every read finds that value.  The order of the text is the whole model of
control flow: the declaration stands directly in the list of statements that its
scope belongs to, plain reads come after it, and reads in inner functions count
only if nothing before the declaration can call a function.
-/

namespace Laconic

namespace FixedValues

/-- Whether evaluating an expression calls no function. -/
def isInertValue (e : Expr) : Bool :=
  e.isConstant || e matches .function _ || e matches .arrow _

/-- Whether the value of a declaration is absent or calls no function. -/
def isInertInit (init : Option Expr) : Bool := init.all isInertValue

/-- Whether a statement calls no function when it runs. -/
def isInert : Stmt → Bool
  | .function _ | .directive .. | .empty _ => true
  | .varDecl d => d.declarators.all fun d => (d.target matches .ident _) && isInertInit d.init
  | _ => false

def ownsVars : BodyKind → Bool
  | .program | .function | .staticBlock => true
  | .block | .case => false

def ownsNames (kind : VarKind) (body : BodyKind) : Bool :=
  match kind with
  | .var => ownsVars body
  | .let | .const => body != .case

/-- The symbol of a declared name, if it may be fixed at all. -/
def candidate? (t : ScopeTree) (toplevel : Bool) (id : Ident) (kind : BindingKind) :
    Option (Nat × Symbol) := do
  let n ← id.symbol
  let s ← t.symbols[n]?
  guard (s.kind == kind && s.declarations.length == 1 && s.assignments == 0 && !s.exported
    && !s.undeclared && !t.isPinned n && (toplevel || !t.isToplevel n))
  return (n, s)

/-- Whether every read of a symbol comes after its declaration. -/
def readsFollow (s : Symbol) (loc : Span) : Bool :=
  s.references.all fun r => r.file == loc.file && loc.stop.offset ≤ r.start.offset

/-- The symbol that a declaration fixes, with its value.  `inert` says that
nothing before it can call a function. -/
def ofDeclarator? (t : ScopeTree) (toplevel : Bool) (body : BodyKind) (kind : VarKind)
    (inert : Bool) (d : Declarator) : Option (Nat × Expr) :=
  match d.target, d.init with
  | .ident id, some value => do
    guard (isInertValue value && ownsNames kind body)
    let (n, s) ← candidate? t toplevel id (.ofVarKind kind)
    guard (if s.escaped then inert else readsFollow s d.loc)
    return (n, value)
  | _, _ => none

/-- The symbol that the declaration of a function fixes, with its value. -/
def ofFunction? (t : ScopeTree) (toplevel : Bool) (body : BodyKind) (f : Func) :
    Option (Nat × Expr) := do
  guard (ownsVars body)
  let id ← f.id
  let (n, _) ← candidate? t toplevel id .function
  return (n, .function { f with id := none })

/-- The symbols that declarations of variables fix, and whether they call no
function. -/
def ofDeclarators (t : ScopeTree) (toplevel : Bool) (body : BodyKind) (kind : VarKind) :
    Bool → List Declarator → List (Nat × Expr)
  | _, [] => []
  | inert, d :: rest =>
    (ofDeclarator? t toplevel body kind inert d).toList
      ++ ofDeclarators t toplevel body kind (inert && isInertInit d.init) rest

/-- The symbols that the statements of a body fix, with their values. -/
def ofBody (t : ScopeTree) (toplevel : Bool) (body : BodyKind) :
    Bool → List Stmt → List (Nat × Expr)
  | _, [] => []
  | inert, s :: rest =>
    let here := match s with
      | .varDecl d => ofDeclarators t toplevel body d.kind inert d.declarators
      | .function f => (ofFunction? t toplevel body f).toList
      | _ => []
    here ++ ofBody t toplevel body (inert && isInert s) rest

/-- The symbols that the statements of a node fix, with their values. -/
def ofNode (t : ScopeTree) (toplevel : Bool) : Node → List (Nat × Expr)
  | .body kind list => ofBody t toplevel kind true list
  | _ => []

end FixedValues

/-- Finds the fixed symbols of a program.  Those of the outermost scope are
fixed only with `toplevel`. -/
def ScopeTree.markFixed (t : ScopeTree) (p : Program) (toplevel : Bool) : ScopeTree :=
  let cleared := { t with symbols := t.symbols.map fun s => { s with fixed := none } }
  (p.nodes.flatMap (FixedValues.ofNode t toplevel)).foldl (fun t (n, value) =>
    t.modifySymbol n fun s => { s with fixed := some value }) cleared

end Laconic
