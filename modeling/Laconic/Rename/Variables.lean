import Laconic.Options.Rename
import Laconic.Output.Render
import Laconic.Rename.Alphabet
import Laconic.Rename.Cache
import Laconic.Scope.Resolve

/-!
# Renaming variables

Scopes are named from the outside in.  When a scope is named, the names of all
scopes around it are final, and its enclosed symbols are those of them that are
referred to in it: a new name must differ from theirs and from the other names of
the scope.
-/

namespace Laconic

namespace RenameOptions

/-- Whether a symbol gets a new name. -/
def renames (o : RenameOptions) (t : ScopeTree) (id : Nat) (s : Symbol) : Bool :=
  !s.undeclared && !s.exported && s.kind != .global && s.kind != .arguments
    && !o.reserved.contains s.name
    && (o.toplevel || s.scope != ScopeTree.root)
    && (o.eval || !t.isPinned id)
    && match s.kind with
      | .function | .functionName => !o.keepFunctionNames
      | .class | .className => !o.keepClassNames
      | _ => true

end RenameOptions

namespace Naming

/-! ## Frequencies -/

def useCount (s : Symbol) : Nat := s.declarations.length + s.references.length + s.assignments

/-- How often a character occurs in a program, without the names that get new
ones. -/
def frequency (text : List Char) (renamed : List Symbol) (c : Char) : Int :=
  let removed := renamed.foldr (fun s n => useCount s * s.name.toList.count c + n) 0
  (text.count c : Int) - removed

def alphabetFor (p : Program) (renamed : List Symbol) : Alphabet :=
  let text := (print { comments := .nothing } p).toList
  .ofFrequency (frequency text renamed)

/-! ## Scopes -/

/-- The symbols to rename, by their numbers. -/
abbrev Eligible := Array Bool

def isEligible (eligible : Eligible) (id : Nat) : Bool := eligible.getD id false

/-- The name of a symbol so far. -/
def outputName (t : ScopeTree) (id : Nat) : List String :=
  (t.symbols[id]?.map (·.outputName)).toList

def enclosedNames (t : ScopeTree) (id : Nat) (s : Scope) : List String :=
  s.enclosed.flatMap fun n =>
    match t.symbols[n]? with
    | some symbol => if symbol.undeclared || symbol.scope != id then [symbol.outputName] else []
    | none => []

def keptNames (t : ScopeTree) (eligible : Eligible) (s : Scope) : List String :=
  s.names.flatMap fun e =>
    if isEligible eligible e.2 then [] else (t.symbols[e.2]?.map (·.name)).toList

/-- The names of the scopes around a block, up to its function. -/
def outerNames (t : ScopeTree) (id : Nat) : List String :=
  let function := t.varScope id
  let outer := (t.ancestors id).drop 1
  let blocks := outer.takeWhile (· != function)
  let upToFunction := blocks ++ (outer.drop blocks.length).take 1
  upToFunction.flatMap fun id =>
    match t.scopes[id]? with
    | some s => s.names.flatMap fun e => outputName t e.2
    | none => []

def takenNames (o : RenameOptions) (cache : Renaming) (t : ScopeTree) (eligible : Eligible)
    (id : Nat) (s : Scope) : List String :=
  enclosedNames t id s ++ keptNames t eligible s
    ++ (if o.safari10 && !s.kind.isVarScope then outerNames t id else [])
    ++ (if id == ScopeTree.root then cache.newNames else [])

def rename (t : ScopeTree) (id : Nat) (name : String) : ScopeTree :=
  t.modifySymbol id fun s => { s with newName := some name }

/-- The name that an earlier run gave to a symbol. -/
def cachedName? (cache : Renaming) (t : ScopeTree) (id : Nat) : Option String :=
  t.symbols[id]?.bind fun s => cache.find? s.name

/-- Gives the symbols of the outermost scope the names of earlier runs. -/
def renameCached (cache : Renaming) (t : ScopeTree) (own : List Nat) : ScopeTree :=
  own.foldl (fun t id =>
    match cachedName? cache t id with
    | some name => rename t id name
    | none => t) t

/-- The tree, the names that are taken, and the number of the next name. -/
structure State where
  tree : ScopeTree
  taken : List String
  next : Nat := 0

/-- Gives one symbol a new name, if it has none. -/
def renameOwn (a : Alphabet) (s : State) (id : Nat) : State :=
  if s.tree.symbols[id]?.any (·.newName.isSome) then s
  else
    let (name, next) := a.fresh s.taken s.next
    { tree := rename s.tree id name, taken := name :: s.taken, next }

/-- Gives the symbols of a scope new names. -/
def renameScope (o : RenameOptions) (cache : Renaming) (a : Alphabet) (eligible : Eligible)
    (t : ScopeTree) (id : Nat) : ScopeTree :=
  match t.scopes[id]? with
  | none => t
  | some s =>
    let own := (s.names.map (·.2)).filter (isEligible eligible)
    let taken := takenNames o cache t eligible id s
    let t := if id == ScopeTree.root then renameCached cache t own else t
    (own.foldl (renameOwn a) { tree := t, taken := taken ++ o.reserved }).tree

/-- Notes the names of the outermost scope for later runs. -/
def remember (t : ScopeTree) (cache : Renaming) : Renaming :=
  match t.scopes[ScopeTree.root]? with
  | none => cache
  | some s =>
    s.names.foldl (fun cache e =>
      match t.symbols[e.2]? with
      | some symbol =>
        match symbol.newName with
        | some new => cache.insert symbol.name new
        | none => cache
      | none => cache) cache

def renamedIdent (t : ScopeTree) (id : Ident) : Ident :=
  match (t.symbolOf? id).bind (·.newName) with
  | some name => { id with name }
  | none => id

end Naming

/-- Gives the symbols of a resolved program new names.  The result has the program
with the new names, its symbols, and the names of the outermost scope for later
runs. -/
def renameVariables (o : RenameOptions) (p : Program) (t : ScopeTree) (cache : Renaming) :
    Program × ScopeTree × Renaming :=
  let eligible : Naming.Eligible := t.symbols.mapIdx fun id s => o.renames t id s
  let renamed := (t.symbols.mapIdx fun id s => if o.renames t id s then [s] else []).toList.flatten
  let alphabet := Naming.alphabetFor p renamed
  let cleared := { t with symbols := t.symbols.map fun s => { s with newName := none } }
  let named := (List.range t.scopes.size).foldl
    (Naming.renameScope o cache alphabet eligible) cleared
  (p.mapIdents (Naming.renamedIdent named), named, Naming.remember named cache)

end Laconic
