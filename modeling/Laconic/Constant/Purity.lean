import Laconic.Scope.Basic

/-!
# What can be noticed when an expression is evaluated

An expression has an effect if its evaluation can be noticed: it calls, assigns,
reads a global name that may not exist, or runs a getter.  Where the value of an
expression is not used, only the parts with effects are needed.
-/

namespace Laconic

/-- The global names that always exist, so that reading them cannot throw. -/
def knownGlobals : List String :=
  ["Array", "ArrayBuffer", "BigInt", "Boolean", "DataView", "Date", "Error", "EvalError",
    "Float32Array", "Float64Array", "Function", "Infinity", "Int8Array", "Int16Array",
    "Int32Array", "JSON", "Map", "Math", "NaN", "Number", "Object", "Promise", "Proxy",
    "RangeError", "ReferenceError", "Reflect", "RegExp", "Set", "String", "Symbol",
    "SyntaxError", "TypeError", "URIError", "Uint8Array", "Uint8ClampedArray", "Uint16Array",
    "Uint32Array", "WeakMap", "WeakSet", "decodeURI", "decodeURIComponent", "encodeURI",
    "encodeURIComponent", "escape", "eval", "globalThis", "isFinite", "isNaN", "parseFloat",
    "parseInt", "undefined", "unescape"]

/-- The dotted name of an expression, such as `console.log`. -/
def Expr.path? : Expr → Option String
  | .ident id => some id.name
  | .member _ _ o (.ident p) => o.path?.map (· ++ "." ++ p.name)
  | .this _ => some "this"
  | _ => none

/-- Whether an expression stands for several values. -/
def Expr.isSpread : Expr → Bool
  | .spread .. => true
  | _ => false

/-- What is known about effects. -/
structure Purity where
  tree : ScopeTree
  /-- Whether reading a property runs no code. -/
  pureGetters : Bool
  /-- The names of functions that have no effect. -/
  pureFunctions : List String

namespace Purity

/-- Whether reading a name can throw. -/
def identEffects (p : Purity) (id : Ident) : Bool :=
  match p.tree.symbolOf? id with
  | some s => s.undeclared && !knownGlobals.contains id.name
  | none => !knownGlobals.contains id.name

/-- Whether calling a function has no effect of its own. -/
def isPureCall (p : Purity) (callee : Expr) (marked : Bool) : Bool :=
  marked || callee.path?.any p.pureFunctions.contains

/-- Whether reading a property cannot run code: the length of a text. -/
def isSafeMember (object : Expr) (property : PropName) : Bool :=
  match object, property with
  | .str _, .ident p | .template .., .ident p => p.name == "length"
  | _, _ => false

mutual

/-- Whether an expression has an effect.  The name of what is called is trusted
as far as its dotted path goes, which the flag says. -/
def effects (p : Purity) (called : Bool) : Expr → Bool
  | .null _ | .bool .. | .num .. | .str _ | .bigint .. | .regexp .. | .this _
  | .metaProperty .. | .function _ | .arrow _ => false
  | .ident id => !called && p.identEffects id
  | .template _ _ es | .sequence _ es => anyEffects p es
  | .array _ es => elementEffects p es
  | .object _ ps => propertyEffects p ps
  | .class c => classEffects p c
  | .unary _ op e =>
    match op, e with
    | .delete, _ => true
    | .typeof, .ident _ => false
    | _, e => effects p false e
  | .binary _ op l r =>
    op == .in || op == .instanceof || effects p false l || effects p false r
  | .logical _ _ l r => effects p false l || effects p false r
  | .conditional _ t c a => effects p false t || effects p false c || effects p false a
  | .member _ _ o k =>
    if called then effects p true o || keyEffects p k
    else (!p.pureGetters && !isSafeMember o k) || effects p false o || keyEffects p k
  | .call _ _ pure callee es =>
    !p.isPureCall callee pure || es.any (·.isSpread) || anyEffects p es || effects p true callee
  | .new _ pure callee es =>
    !p.isPureCall callee pure || es.any (·.isSpread) || anyEffects p es
  | .chain _ e => effects p false e
  | .super _ | .update .. | .assign .. | .tagged .. | .spread .. | .yield .. | .await ..
  | .importCall .. => true

def anyEffects (p : Purity) : List Expr → Bool
  | [] => false
  | e :: rest => effects p false e || anyEffects p rest

def optEffects (p : Purity) : Option Expr → Bool
  | none => false
  | some e => effects p false e

def elementEffects (p : Purity) : List (Option Expr) → Bool
  | [] => false
  | none :: rest => elementEffects p rest
  | some e :: rest => effects p false e || elementEffects p rest

def keyEffects (p : Purity) : PropName → Bool
  | .computed e => effects p false e
  | _ => false

def propertyEffects (p : Purity) : List Property → Bool
  | [] => false
  | .value _ k e :: rest => keyEffects p k || effects p false e || propertyEffects p rest
  | .getter _ k _ :: rest | .setter _ k _ :: rest | .method _ k _ :: rest =>
    keyEffects p k || propertyEffects p rest
  | .spread .. :: _ => true

def classEffects (p : Purity) : ClassDef → Bool
  | ⟨_, _, superClass, body⟩ => optEffects p superClass || memberEffects p body

def memberEffects (p : Purity) : List Member → Bool
  | [] => false
  | .method _ _ _ k _ :: rest => keyEffects p k || memberEffects p rest
  | .property _ isStatic k e :: rest =>
    keyEffects p k || (isStatic && optEffects p e) || memberEffects p rest
  | .staticBlock .. :: _ => true

end

/-- Whether evaluating an expression can be noticed. -/
def hasEffects (p : Purity) (e : Expr) : Bool := p.effects false e

/-- Expressions one after the other, if there are any. -/
def sequence? (es : List Expr) : Option Expr :=
  if es.isEmpty then none else some (.mkSequence es)

/-- A choice of which only the effects count. -/
def chooseEffects (test : Expr) (droppedTest : Option Expr) :
    Option Expr → Option Expr → Option Expr
  | none, none => droppedTest
  | some c, none => some (.mkLogical .and test c)
  | none, some a => some (.mkLogical .or test a)
  | some c, some a => some (.mkConditional test c a)

mutual

/-- What must still be evaluated of an expression whose value is not used. -/
def dropUnused (p : Purity) (e : Expr) : Option Expr :=
  if !p.hasEffects e then none
  else
    match e with
    | .sequence _ es => sequence? (dropList p es)
    | .binary loc op l r =>
      match op with
      | .in | .instanceof => some (.binary loc op l r)
      | _ => sequence? ((dropUnused p l).toList ++ (dropUnused p r).toList)
    | .logical _ op l r =>
      match dropUnused p r with
      | none => dropUnused p l
      | some r => some (.mkLogical op l r)
    | .conditional _ t c a => chooseEffects t (dropUnused p t) (dropUnused p c) (dropUnused p a)
    | .unary loc op e => if op == .delete then some (.unary loc op e) else dropUnused p e
    | .call loc optional pure (.member mloc mopt o k) es =>
      let callee := Expr.member mloc mopt o k
      if p.isPureCall callee pure && !es.any (·.isSpread) then
        let object := if p.effects true callee then (dropUnused p o).toList else []
        sequence? (object ++ dropList p es)
      else some (.call loc optional pure callee es)
    | .call loc optional pure callee es =>
      if p.isPureCall callee pure && !es.any (·.isSpread) then sequence? (dropList p es)
      else some (.call loc optional pure callee es)
    | .array loc es =>
      if es.any (·.any (·.isSpread)) then some (.array loc es) else sequence? (dropElements p es)
    | .template _ _ es => sequence? (dropList p es)
    | .member loc optional o k =>
      if p.pureGetters then sequence? ((dropUnused p o).toList ++ dropKey p k)
      else some (.member loc optional o k)
    | e => some e

def dropList (p : Purity) : List Expr → List Expr
  | [] => []
  | e :: rest => (dropUnused p e).toList ++ dropList p rest

def dropElements (p : Purity) : List (Option Expr) → List Expr
  | [] => []
  | none :: rest => dropElements p rest
  | some e :: rest => (dropUnused p e).toList ++ dropElements p rest

def dropKey (p : Purity) : PropName → List Expr
  | .computed e => (dropUnused p e).toList
  | _ => []

end

end Purity

end Laconic
