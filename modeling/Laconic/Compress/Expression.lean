import Laconic.Compress.Inline
import Laconic.Output.Render
import Laconic.Token.Literal
import Laconic.Tree.Rewriter

/-!
# Shorter expressions

What is done with an expression once its parts are done: names with known values
become literals, comparisons and conditions are simplified, constant expressions
are worked out, and calls are replaced by the bodies of functions.

Each rule either gives a new expression or changes the present one, in which case
it is also tried whether the expression is constant.
-/

namespace Laconic

/-! ## Literals for given values -/

mutual

def Expr.ofJson (loc : Span) : Json → Expr
  | .null => .null loc
  | .bool b => .bool loc b
  | .int n => .ofNumber (Number.ofInt n) loc
  | .float x => .ofNumber x loc
  | .str s => .ofString s loc
  | .arr items => .array loc (Expr.ofJsonItems loc items)
  | .obj members =>
    let properties := Expr.ofJsonMembers loc members
    .object loc ((properties.mergeSort fun a b => a.1 ≤ b.1).map (·.2))

def Expr.ofJsonItems (loc : Span) : List Json → List (Option Expr)
  | [] => []
  | v :: rest => some (Expr.ofJson loc v) :: Expr.ofJsonItems loc rest

/-- The properties of an object for members in JSON, each with its name.  Of
members with the same name the last one counts. -/
def Expr.ofJsonMembers (loc : Span) : List (String × Json) → List (String × Property)
  | [] => []
  | (name, v) :: rest =>
    let more := Expr.ofJsonMembers loc rest
    if more.any (·.1 == name) then more
    else
      let key := if isIdentifierName name then PropName.ident ⟨loc, name, none⟩
        else .str ⟨loc, name, none⟩
      (name, .value loc key (Expr.ofJson loc v)) :: more

end

/-- A literal moved to another place. -/
def Expr.relocate (loc : Span) : Expr → Expr
  | .null _ => .null loc
  | .bool _ b => .bool loc b
  | .num _ x => .num loc x
  | .str lit => .str { lit with loc }
  | .bigint _ digits => .bigint loc digits
  | .unary _ op e => .unary loc op (e.relocate loc)
  | e => e

/-! ## Questions about expressions -/

/-- The truth value that an expression spells, as a word or as `!0` and `!1`. -/
def Expr.truthLiteral? : Expr → Option Bool
  | .bool _ b => some b
  | .unary _ .not (.num _ x) => some (x == 0)
  | _ => none

def Expr.isNumeral : Expr → Bool
  | .num .. => true
  | _ => false

/-- What `typeof` says of an expression, if its form tells. -/
def Expr.staticType? : Expr → Option String
  | .str _ | .template .. => some "string"
  | .num .. => some "number"
  | .bool .. => some "boolean"
  | .unary _ op e =>
    match op with
    | .typeof => some "string"
    | .not | .delete => some "boolean"
    | .void => some "undefined"
    | .minus | .plus | .bitNot => if e.isNumeral then some "number" else none
  | .binary _ op _ _ => if op.isBoolean then some "boolean" else none
  | _ => none

/-- The name that a chain of properties begins with. -/
def Expr.rootIdent? : Expr → Option Ident
  | .ident id => some id
  | .member _ _ o _ => o.rootIdent?
  | _ => none

/-- Whether an expression in the place of `(0, e)` would get another `this` or be
a direct `eval`. -/
def Expr.isDetached : Expr → Bool
  | .member .. => true
  | .ident id => id.name == "eval"
  | _ => false

/-- The number of an index that a text spells exactly. -/
def canonicalIndex? (s : String) : Option Float := do
  guard (!s.isEmpty && s.utf8ByteSize ≤ 15 && s.toList.all Char.isDigit)
  let x ← Number.readDecimal? s.toList
  guard (Number.text x == s)
  return x

namespace Compressor

/-! ## Names of properties -/

/-- Whether a property can be named without quotes. -/
def isPlainName (c : Compressor) (name : String) : Bool :=
  isIdentifierName name && !(c.ie8 && isReservedWord name)

def unquoteAccess (c : Compressor) (property : PropName) : PropName :=
  match property with
  | .computed (.str ⟨loc, name, none⟩) =>
    if !c.options.properties then property
    else if c.isPlainName name then .ident ⟨loc, name, none⟩
    else
      match canonicalIndex? name with
      | some x => .computed (.num loc x)
      | none => property
  | property => property

def unquoteName (c : Compressor) (key : PropName) (loc : Span) (name : String) : PropName :=
  if c.isPlainName name then .ident ⟨loc, name, none⟩
  else
    match canonicalIndex? name with
    | some x => .num loc x
    | none => key

/-- The name of a property of an object, without quotes where possible. -/
def unquoteKey (c : Compressor) (key : PropName) : PropName :=
  match key with
  | .str ⟨loc, name, none⟩ => c.unquoteName key loc name
  | .computed (.str ⟨loc, name, none⟩) =>
    if name == "__proto__" then key else c.unquoteName key loc name
  | key => key

/-- A property of an object, with its name without quotes where possible. -/
def unquoteProperty (c : Compressor) : Property → Property
  | .value loc key e => .value loc (c.unquoteKey key) e
  | .getter loc key f => .getter loc (c.unquoteKey key) f
  | .setter loc key f => .setter loc (c.unquoteKey key) f
  | .method loc key f => .method loc (c.unquoteKey key) f
  | .spread loc e => .spread loc e

/-! ## Rules -/

/-- What a rule says about an expression. -/
inductive Verdict where
  /-- This takes its place. -/
  | replace (e : Expr)
  /-- It is now this, to which further rules apply. -/
  | change (e : Expr)

def givenValue? (c : Compressor) (name : String) (loc : Span) : Option Expr :=
  (c.options.globals.lookup name).map (Expr.ofJson loc)

/-- What takes the place of a name. -/
def optimizeIdent? (c : Compressor) (id : Ident) : Option Expr := do
  let s ← c.tree.symbolOf? id
  if s.undeclared then
    match c.givenValue? id.name id.loc with
    | some value => return value
    | none =>
      guard (s.assignments == 0)
      match id.name with
      | "undefined" => return .undefined id.loc
      | "Infinity" => return .ofNumber Number.infinity id.loc
      | _ => none
  else
    guard c.options.reduceVars
    let value ← s.fixed
    guard value.isConstant
    guard (value.text.utf8ByteSize ≤ c.options.inlineMaxLength || s.references.length == 1)
    return value.relocate id.loc

/-- The value of a property that the options give. -/
def givenMember? (c : Compressor) (e object : Expr) : Option Expr := do
  let value ← c.givenValue? (← e.path?) e.loc
  guard (object.rootIdent?.any c.isUndeclared)
  return value

/-- What takes the place of a comparison of a type with `"undefined"`: of a
declared name its value is compared, and for any other name the order of the
names of types tells. -/
def typeofUndefined? (c : Compressor) (loc : Span) (op : BinaryOp) (l r : Expr) : Option Expr :=
  let compare (type : Expr) (name : Expr) : Option Expr :=
    match type, name with
    | .unary _ .typeof (.ident id), .str lit =>
      if lit.value != "undefined" then none
      else
        let equal := op == .eq || op == .strictEq
        if c.isUndeclared id then
          some (.mkBinary (if equal then .gt else .lt) type (.ofString "u" loc))
        else
          some (.mkBinary (if equal then .strictEq else .strictNotEq) (.ident id) (.undefined loc))
    | _, _ => none
  if !op.isEquality then none
  else
    match l, r with
    | .unary _ .typeof _, _ => compare l r
    | _, .unary _ .typeof _ => compare r l
    | _, _ => none

/-- The operation with which operands of known types are compared. -/
def looserEquality (c : Compressor) (op : BinaryOp) (l r : Expr) : BinaryOp :=
  if c.options.comparisons && l.staticType?.isSome && l.staticType? == r.staticType? then
    match op with
    | .strictEq => .eq
    | .strictNotEq => .notEq
    | op => op
  else op

def optimizeUnary (c : Compressor) (loc : Span) (op : UnaryOp) (e : Expr) : Verdict :=
  match op with
  | .not =>
    match e with
    | .binary bloc bop l r =>
      match bop.negated? with
      | some negated =>
        if c.options.comparisons then .replace (.binary bloc negated l r)
        else .change (.unary loc .not (c.condition e))
      | none => .change (.unary loc .not (c.condition e))
    | e => .change (.unary loc .not (c.condition e))
  | .void =>
    if c.options.sideEffects && !e.isConstant then
      match c.purity.dropUnused e with
      | none => .replace (.undefined loc)
      | some kept => .change (.unary loc .void kept)
    else .change (.unary loc .void e)
  | op => .change (.unary loc op e)

/-- Whether the value of a logical operation is that of its left operand, if that
is known. -/
def takesLeft? (c : Compressor) (op : LogicalOp) (left : Expr) : Option Bool :=
  match op with
  | .and => (c.truth? left).map (!·)
  | .or => c.truth? left
  | .nullish => (left.evaluate c.knowledge).toOption.map (!·.isNullish)

def optimizeLogical (c : Compressor) (loc : Span) (op : LogicalOp) (l r : Expr) : Verdict :=
  if !c.options.conditionals && !c.options.evaluate then .change (.logical loc op l r)
  else
    match c.takesLeft? op l with
    | none => .change (.logical loc op l r)
    | some true => .replace l
    | some false =>
      if c.purity.hasEffects l then .change (.logical loc op l r) else .replace r

/-- A choice whose condition is no negation. -/
def unnegated (test x y : Expr) : Expr × Expr × Expr :=
  match test with
  | .unary _ .not e => (e, y, x)
  | test => (test, x, y)

def optimizeConditional (c : Compressor) (loc : Span) (test x y : Expr) : Verdict :=
  if !c.options.conditionals then .change (.conditional loc test x y)
  else
    let test := c.condition test
    let known := if c.purity.hasEffects test then none else c.truth? test
    match known with
    | some t => .replace (if t then x else y)
    | none =>
      let (test, x, y) := unnegated test x y
      match c.options.booleans, x.truthLiteral?, y.truthLiteral? with
      | true, some true, some false => .replace (.mkNot (.mkNot test))
      | true, some false, some true => .replace (.mkNot test)
      | _, _, _ => .change (.conditional loc test x y)

/-- The rules for sequences: only the effects of all but the last count. -/
def optimizeSequence (c : Compressor) (loc : Span) (es : List Expr) : Verdict :=
  if !c.options.sideEffects || es.length < 2 then .change (.sequence loc es)
  else
    match es.getLast? with
    | none => .change (.sequence loc es)
    | some last =>
      let kept := es.dropLast.filterMap c.purity.dropUnused
      let kept := if kept.isEmpty && last.isDetached then [.num loc 0] else kept
      .replace (.mkSequence (kept ++ [last]))

/-- The rules for expressions other than calls. -/
def optimizeShape (c : Compressor) (e : Expr) : Verdict :=
  match e with
  | .bool loc b =>
    if c.options.booleans then .replace (.mkNot (.num loc (if b then 0 else 1))) else .change e
  | .ident id =>
    match c.optimizeIdent? id with
    | some value => .replace value
    | none => .change e
  | .member loc optional o p =>
    match c.givenMember? e o with
    | some value => .replace value
    | none => .change (.member loc optional o (c.unquoteAccess p))
  | .object loc ps =>
    if c.options.properties then .change (.object loc (ps.map c.unquoteProperty)) else .change e
  | .unary loc op e => c.optimizeUnary loc op e
  | .binary loc op l r =>
    match if c.options.typeofs then c.typeofUndefined? loc op l r else none with
    | some shorter => .replace shorter
    | none => .change (.binary loc (c.looserEquality op l r) l r)
  | .logical loc op l r => c.optimizeLogical loc op l r
  | .conditional loc test x y => c.optimizeConditional loc test x y
  | .sequence loc es => c.optimizeSequence loc es
  | .assign loc op (.expr (.member mloc optional o p)) v =>
    .change (.assign loc op (.expr (.member mloc optional o (c.unquoteAccess p))) v)
  | e => .change e

/-- Works out an expression, if that does not make it longer. -/
def evaluated? (c : Compressor) (e : Expr) : Compressing (Option Expr) := do
  if e.isConstant || e.ident?.isSome || (e matches .str _) || (e matches .num ..) then return none
  match e.evaluate c.knowledge with
  | .ok value =>
    let folded := value.toExpr e.loc c.options.booleans
    let before := e.text
    let after := folded.text
    return if after.utf8ByteSize ≤ before.utf8ByteSize && after != before then some folded else none
  | .error .notConstant => return none
  | .error (.throws fault) =>
    c.warn (.throws e.text fault.message) e.loc
    return none

def concludeExpr (c : Compressor) : Verdict → Compressing (Action Expr)
  | .replace e => return .replace e
  | .change e => do
    if c.options.evaluate then
      return .replace ((← c.evaluated? e).getD e)
    else return .replace e

def isDroppedConsole (c : Compressor) (callee : Expr) : Bool :=
  c.options.dropConsole && callee.path?.any fun name => "console.".toList.isPrefixOf name.toList

/-- What the call of a name without arguments can be replaced by. -/
def expansion? (c : Compressor) (inlining : List Nat) : Expr → Option (Nat × Expr)
  | .call loc false _ (.ident callee) [] =>
    if 1 ≤ c.options.inline && c.options.reduceVars then c.inlineCall? inlining loc callee
    else none
  | _ => none

/-- The rules for an expression whose parts are done.  `expand` rewrites the body
that takes the place of a call. -/
def optimizeExpr (c : Compressor) (inlining : List Nat) (expand : Nat → Expr → Compressing Expr)
    (e : Expr) : Compressing (Action Expr) :=
  match e with
  | .call loc _ _ callee _ =>
    if c.isDroppedConsole callee then return .replace (.undefined loc)
    else
      match c.expansion? inlining e with
      | some (id, value) => return .replace (← expand id value)
      | none => c.concludeExpr (.change e)
  | e => c.concludeExpr (c.optimizeShape e)

end Compressor

end Laconic
