import Laconic.Error
import Laconic.Options.Rename
import Laconic.Rename.Alphabet
import Laconic.Rename.Cache
import Laconic.Tree.Names

/-!
# Renaming properties

Properties have no scope: a name becomes the same new name wherever it stands.
That is right only for the names that belong to the program, so those of the
language and its usual environment are kept unless the options say otherwise.

A property that is counted up or down keeps its name there.

Renaming can be limited to names in which a pattern is found.  The patterns are those of an
engine that it is given.
-/

namespace Laconic

/-- Properties of the language and its usual environment. -/
def builtinProperties : List String :=
  ["__proto__", "add", "addEventListener", "all", "appendChild", "apply", "arguments", "assign",
    "bind", "call", "callee", "caller", "catch", "ceil", "charAt", "charCodeAt", "clear", "concat",
    "configurable", "console", "constructor", "create", "createElement", "default",
    "defineProperty", "delete", "document", "done", "endsWith", "entries", "enumerable", "error",
    "every", "exec", "exports", "fill", "filter", "finally", "find", "findIndex", "floor",
    "forEach", "freeze", "from", "get", "getAttribute", "getElementById", "getPrototypeOf",
    "getTime", "has", "hasOwnProperty", "includes", "indexOf", "innerHTML", "isArray", "iterator",
    "join", "keys", "length", "log", "map", "match", "max", "message", "min", "name", "next", "now",
    "of", "padStart", "parse", "pop", "prototype", "push", "querySelector", "querySelectorAll",
    "race", "random", "reduce", "reject", "removeEventListener", "repeat", "replace", "resolve",
    "reverse", "round", "set", "setAttribute", "shift", "size", "slice", "some", "sort", "splice",
    "split", "stack", "startsWith", "stringify", "style", "substring", "test", "textContent",
    "then", "toFixed", "toLowerCase", "toString", "toUpperCase", "trim", "unshift", "value",
    "valueOf", "values", "warn", "window", "writable"]

namespace Properties

/-! ## Names in a program -/

/-- The name of a property in a node; the flag says whether it stands in
quotes. -/
def nameIn? : Node → Option (String × Bool)
  | .expr (.member _ _ _ (.ident id)) => some (id.name, false)
  | .expr (.member _ _ _ (.computed (.str lit))) => some (lit.value, true)
  | .key (.ident id) => some (id.name, false)
  | .key (.str lit) => some (lit.value, true)
  | _ => none

def names (p : Program) : List String :=
  (p.nodes.filterMap nameIn?).foldl (fun names e =>
    if names.contains e.1 then names else names ++ [e.1]) []

/-- The names of properties that stand in quotes somewhere. -/
def quotedNames (p : Program) : List String :=
  ((p.nodes.filterMap nameIn?).filter (·.2)).map (·.1)

/-! ## New names -/

/-- The names that have new ones so far, those for later runs, the names that are
taken, and the number of the next name. -/
structure State where
  table : Renaming := []
  cache : Renaming
  taken : List String
  next : Nat := 0

/-- Gives a property a new name: that of an earlier run, else the next one. -/
def renameOne (s : State) (name : String) : State :=
  let (new, next) := match s.cache.find? name with
    | some cached => (cached, s.next)
    | none => Alphabet.plain.fresh s.taken s.next
  { table := s.table.insert name new, cache := s.cache.insert name new
    taken := new :: s.taken, next }

def newName (r : Renaming) (name : String) : String := (r.find? name).getD name

/-- A string with the new name of a property. -/
def renamedString (r : Renaming) (lit : StringLit) : StringLit :=
  match r.find? lit.value with
  | some new => ⟨lit.loc, new, none⟩
  | none => lit

def renamedKey (r : Renaming) : PropName → PropName
  | .ident id => .ident { id with name := newName r id.name }
  | .str lit => .str (renamedString r lit)
  | k => k

def renamedAccess (r : Renaming) : PropName → PropName
  | .ident id => .ident { id with name := newName r id.name }
  | .computed (.str lit) => .computed (.str (renamedString r lit))
  | k => k

/-- A program with new names of properties. -/
def renamed (r : Renaming) (p : Program) : Program :=
  let f : NameMap Id :=
    { key := fun k => pure (renamedKey r k), access := fun k => pure (renamedAccess r k) }
  Id.run (f.program p)

end Properties

/-- Gives the properties of a program new names.  The result has the program with
the new names and the names for later runs. -/
def renameProperties [PatternEngine] (o : PropertyOptions) (p : Program) (cache : Renaming) :
    Except Error (Program × Renaming) := do
  let pattern ← match o.pattern with
    | none => pure none
    | some text =>
      match PatternEngine.compile? text with
      | some isFoundIn => pure (some isFoundIn)
      | none => throw .badPropertyPattern
  let kept := o.reserved ++ (if o.builtins then [] else builtinProperties)
    ++ (if o.keepQuoted then Properties.quotedNames p else [])
  let isRenamed (name : String) : Bool :=
    !kept.contains name && pattern.all fun isFoundIn => isFoundIn name
  let names := Properties.names p
  let taken := names.filter (fun name => !isRenamed name) ++ cache.newNames
  let s := (names.filter isRenamed).foldl Properties.renameOne { cache, taken }
  return (Properties.renamed s.table p, s.cache)

end Laconic
