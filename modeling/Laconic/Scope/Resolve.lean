import Laconic.Scope.Event
import Laconic.Tree.Names
import Laconic.Error

/-!
# Resolution of names

Resolving a program takes two runs over its events.  The first one builds the
scopes and declares the names; it fails if a name is declared twice where only
one declaration may stand.  Each declared name gets the number of its symbol.
The second one goes through the same scopes again, in the program as the first
one left it, and finds the symbol of each reference.
-/

namespace Laconic

/-! ## Symbols -/

namespace ScopeTree

def addSymbol (t : ScopeTree) (name : String) (kind : BindingKind) (scope : Nat) (loc : Span) :
    ScopeTree × Nat :=
  let id := t.symbols.size
  let symbol : Symbol :=
    { name, scope, kind
      declarations := if loc.isNowhere then [] else [loc]
      references := []
      assignments := 0
      exported := false
      undeclared := kind == .global
      escaped := false
      fixed := none
      newName := none }
  let t := { t with symbols := t.symbols.push symbol }
  if kind == .global then (t, id)
  else (t.modifyScope scope fun s => { s with names := s.names.insert name id }, id)

/-- Notes one more declaration of a symbol. -/
def redeclare (t : ScopeTree) (symbol : Nat) (loc : Span) : ScopeTree :=
  t.modifySymbol symbol fun s => { s with declarations := s.declarations ++ [loc] }

def declaredKind? (t : ScopeTree) (name : String) (scope : Nat) : Option BindingKind :=
  (t.declared? name scope).bind fun id => t.symbols[id]?.map (·.kind)

def markExported (t : ScopeTree) (symbol : Nat) : ScopeTree :=
  t.modifySymbol symbol fun s => { s with exported := true }

/-- Marks what a name is bound to as exported. -/
def exportName (t : ScopeTree) (id : Ident) : ScopeTree :=
  match id.symbol with
  | some symbol => t.markExported symbol
  | none => t

@[simp] theorem exportName_some (t : ScopeTree) (loc : Span) (name : String) (symbol : Nat) :
    t.exportName ⟨loc, name, some symbol⟩ = t.markExported symbol :=
  rfl

end ScopeTree

/-! ## The first run -/

/-- The state of the run that declares names. -/
structure Declaring where
  tree : ScopeTree := {}
  /-- The scopes around the present place, from the inside out. -/
  stack : List Nat := []
  /-- For each scope, the names of the `var` declarations inside it that belong
  to a scope further out. -/
  hoisted : Array (List String) := #[]
  /-- The symbols of the declarations so far. -/
  symbols : Array Nat := #[]

namespace Declaring

def current (d : Declaring) : Nat := d.stack.headD ScopeTree.root

def enter (d : Declaring) (kind : ScopeKind) (loc : Span) (strict : Bool) : Declaring :=
  let id := d.tree.scopes.size
  let parent := d.stack.head?
  let strict := strict || (parent.bind (d.tree.scopes[·]?)).any (·.strict)
  let scope : Scope :=
    { kind, parent, strict, loc
      children := []
      names := []
      enclosed := []
      usesEval := false
      usesWith := kind == .with
      usesArguments := false
      usesThis := false
      pinned := false }
  let tree := { d.tree with scopes := d.tree.scopes.push scope }
  let tree := match parent with
    | some parent => tree.modifyScope parent fun s => { s with children := s.children ++ [id] }
    | none => tree
  { d with tree, stack := id :: d.stack, hoisted := d.hoisted.push [] }

def leave (d : Declaring) : Declaring := { d with stack := d.stack.tail }

/-- Whether a declaration in the innermost scope belongs to the function around
it.  A function in a block does so in code that is not strict. -/
def isHoisted (d : Declaring) (kind : BindingKind) : Bool :=
  match kind with
  | .var => true
  | .function => d.tree.scopes[d.current]?.all fun s => !s.strict || s.kind.isVarScope
  | _ => false

/-- Whether a scope has a name that a `var` declaration inside it may not
pass. -/
def blocks (d : Declaring) (name : String) (scope : Nat) : Bool :=
  (d.tree.declaredKind? name scope).any fun k => k.isLexical || k == .function

/-- Declares a name in the nearest function scope; `none` if it may not stand
there. -/
def declareVar (d : Declaring) (name : String) (kind : BindingKind) (loc : Span) :
    Option (Declaring × Nat) :=
  let inner := d.stack.takeWhile fun id => !d.tree.isVarScope id
  let target := (d.stack.find? d.tree.isVarScope).getD (d.stack.getLastD ScopeTree.root)
  if inner.any (d.blocks name) then none
  else
    let hoisted := inner.foldl (fun h id => h.modify id (name :: ·)) d.hoisted
    let d := { d with hoisted }
    match d.tree.declared? name target, d.tree.declaredKind? name target with
    | some symbol, some old =>
      if old.isLexical then none
      else if old.isShadowable then
        let (tree, symbol) := d.tree.addSymbol name kind target loc
        some ({ d with tree }, symbol)
      else
        let tree := d.tree.redeclare symbol loc
        let tree :=
          if kind == .function && old == .var then
            tree.modifySymbol symbol fun s => { s with kind := .function }
          else tree
        some ({ d with tree }, symbol)
    | _, _ =>
      let (tree, symbol) := d.tree.addSymbol name kind target loc
      some ({ d with tree }, symbol)

/-- Declares a name in the innermost scope; `none` if it may not stand there. -/
def declareLexical (d : Declaring) (name : String) (kind : BindingKind) (loc : Span) :
    Option (Declaring × Nat) :=
  let target := d.current
  if kind.isLexical && d.hoisted[target]?.any (·.contains name) then none
  else
    match d.tree.declared? name target, d.tree.declaredKind? name target with
    | some symbol, some old =>
      if old.isShadowable then
        let (tree, symbol) := d.tree.addSymbol name kind target loc
        some ({ d with tree }, symbol)
      else if (old == .param && kind == .param)
          || (!old.isLexical && !kind.isLexical && old == kind) then
        some ({ d with tree := d.tree.redeclare symbol loc }, symbol)
      else none
    | _, _ =>
      let (tree, symbol) := d.tree.addSymbol name kind target loc
      some ({ d with tree }, symbol)

def declare? (d : Declaring) (name : String) (kind : BindingKind) (loc : Span) :
    Option (Declaring × Nat) :=
  if d.isHoisted kind then d.declareVar name kind loc else d.declareLexical name kind loc

/-- Takes one event.  `fileName` gives the name of the text of a place. -/
def step (fileName : Span → String) (d : Declaring) : ScopeEvent → Except Error Declaring
  | .enter kind loc strict => .ok (d.enter kind loc strict)
  | .leave => .ok d.leave
  | .declare id kind exported _ =>
    match d.declare? id.name kind id.loc with
    | some (d, symbol) =>
      let id := { id with symbol := some symbol }
      let tree := if exported then d.tree.exportName id else d.tree
      .ok { d with tree, symbols := d.symbols.push symbol }
    | none => .error (.grammar (.redeclared id.name) id.loc.start (fileName id.loc))
  | .refer .. | .this => .ok d

end Declaring

/-! ## The second run -/

/-- The state of the run that finds the symbols of references. -/
structure Referring where
  tree : ScopeTree
  stack : List Nat := []
  /-- The number of the next scope. -/
  next : Nat := 0
  /-- The symbols of the names so far. -/
  symbols : Array Nat := #[]

namespace Referring

/-- What the search for a name meets in a scope. -/
inductive Found where
  | symbol (tree : ScopeTree) (id : Nat)
  | nothing

/-- Looks for a name in one scope.  A function has its arguments under a name
of their own as soon as the name is used in it. -/
def searchScope (t : ScopeTree) (name : String) (scope : Nat) : Found :=
  match t.declared? name scope with
  | some id => .symbol t id
  | none =>
    if name == "arguments" && t.scopes[scope]?.any (·.kind == .function) then
      let t := t.modifyScope scope fun s => { s with usesArguments := true }
      let (t, id) := t.addSymbol name .arguments scope .nowhere
      .symbol t id
    else .nothing

/-- Looks for a name in scopes, the first of which is the innermost.  The flag
says whether the search has left a function. -/
def search (t : ScopeTree) (name : String) : List Nat → Bool → ScopeTree × Option Nat × Bool
  | [], crossed => (t, none, crossed)
  | scope :: outer, crossed =>
    match searchScope t name scope with
    | .symbol t id => (t, some id, crossed)
    | .nothing =>
      let left := t.scopes[scope]?.any (·.kind.isFunction)
      search t name outer (crossed || left)

def globalSymbol (t : ScopeTree) (name : String) : ScopeTree × Nat :=
  match t.globals.find? name with
  | some id => (t, id)
  | none =>
    let (t, id) := t.addSymbol name .global ScopeTree.root .nowhere
    ({ t with globals := t.globals.insert name id }, id)

def enclose (t : ScopeTree) (symbol scope : Nat) : ScopeTree :=
  t.modifyScope scope fun s =>
    if s.enclosed.contains symbol then s else { s with enclosed := s.enclosed ++ [symbol] }

/-- The scopes up to and including the given one. -/
def upTo (scope : Nat) : List Nat → List Nat
  | [] => []
  | id :: outer => if id == scope then [id] else id :: upTo scope outer

def noteAccess (access : Access) (loc : Span) (crossed : Bool) (s : Symbol) : Symbol :=
  { s with
    references := if access == .write then s.references else s.references ++ [loc]
    assignments := if access == .read then s.assignments else s.assignments + 1
    escaped := s.escaped || crossed }

def refer (r : Referring) (id : Ident) (access : Access) : Referring × Nat :=
  let (t, found, crossed) := search r.tree id.name r.stack false
  let (t, symbol) := match found with
    | some symbol => (t, symbol)
    | none => globalSymbol t id.name
  let home := (t.symbols[symbol]?.map (·.scope)).getD ScopeTree.root
  let t := (upTo home r.stack).foldl (fun t scope => enclose t symbol scope) t
  let t := t.modifySymbol symbol (noteAccess access id.loc crossed)
  let t :=
    if id.name == "eval" && t.symbols[symbol]?.any (·.undeclared) then
      t.modifyScope (r.stack.headD ScopeTree.root) fun s => { s with usesEval := true }
    else t
  ({ r with tree := t }, symbol)

/-- The scope whose `this` is meant inside the scopes of a stack. -/
def thisScope (t : ScopeTree) : List Nat → Option Nat
  | [] => none
  | id :: outer =>
    match t.scopes[id]? with
    | some s =>
      if s.kind == .function || s.kind == .class || s.parent.isNone then some id
      else thisScope t outer
    | none => none

/-- Takes one event.  A declared name is bound already; one that is assigned anew in each
round of a loop is written once more. -/
def step (r : Referring) : ScopeEvent → Referring
  | .enter .. => { r with stack := r.next :: r.stack, next := r.next + 1 }
  | .leave => { r with stack := r.stack.tail }
  | .declare id _ _ loop =>
    match id.symbol with
    | some symbol =>
      let tree :=
        if loop then
          r.tree.modifySymbol symbol fun s => { s with assignments := s.assignments + 1 }
        else r.tree
      { r with tree, symbols := r.symbols.push symbol }
    | none => r
  | .refer id access exported =>
    let (r, symbol) := r.refer id access
    let id := { id with symbol := some symbol }
    let tree := if exported then r.tree.exportName id else r.tree
    { r with tree, symbols := r.symbols.push symbol }
  | .this =>
    match thisScope r.tree r.stack with
    | some id => { r with tree := r.tree.modifyScope id fun s => { s with usesThis := true } }
    | none => r

end Referring

/-! ## The result -/

namespace ScopeTree

/-- Marks the scopes whose names must stay: from the last scope on, a scope that
uses `eval` or `with` or has such a scope in it pins the one around it. -/
def pin (t : ScopeTree) : ScopeTree :=
  (List.range t.scopes.size).reverse.foldl (fun t id =>
    match t.scopes[id]? with
    | some s =>
      if s.pinned || s.usesEval || s.usesWith then
        let t := t.modifyScope id fun s => { s with pinned := true }
        match s.parent with
        | some parent => t.modifyScope parent fun s => { s with pinned := true }
        | none => t
      else t
    | none => t) t

end ScopeTree

/-- Gives the names of a program the numbers of their symbols, in order. -/
def Program.bindIdents (p : Program) (symbols : List Nat) : Program :=
  let bind (id : Ident) : StateM (List Nat) Ident := do
    match ← get with
    | symbol :: rest => set rest; return { id with symbol := some symbol }
    | [] => return id
  (p.mapIdentsM bind symbols).1

/-- The symbols of the names that events are about, where those of the declared ones are
known. -/
def ScopeEvent.declaredSymbols : List ScopeEvent → List Nat → List (Option Nat)
  | .declare .. :: es, symbol :: symbols => some symbol :: declaredSymbols es symbols
  | .declare .. :: es, [] => none :: declaredSymbols es []
  | .refer .. :: es, symbols => none :: declaredSymbols es symbols
  | _ :: es, symbols => declaredSymbols es symbols
  | [], _ => []

/-- Gives the declared names of a program the numbers of their symbols, in order.  All other
names keep the numbers that they have. -/
def Program.bindDeclared (ie8 : Bool) (p : Program) (symbols : List Nat) : Program :=
  let bind (id : Ident) : StateM (List (Option Nat)) Ident := do
    match ← get with
    | some symbol :: rest => set rest; return { id with symbol := some symbol }
    | none :: rest => set rest; return id
    | [] => return id
  (p.mapIdentsM bind (ScopeEvent.declaredSymbols (p.scopeEvents ie8) symbols)).1

/-- Resolves the names of a program.  With `ie8` the name of a function
expression and the name of a caught exception belong to the function around
them. -/
def resolve (ie8 : Bool) (p : Program) : Except Error (Program × ScopeTree) := do
  let declared ← (p.scopeEvents ie8).foldlM (Declaring.step p.fileName) {}
  let p := p.bindDeclared ie8 declared.symbols.toList
  let referred := (p.scopeEvents ie8).foldl Referring.step { tree := declared.tree }
  return (p.bindIdents referred.symbols.toList, referred.tree.pin)

end Laconic
