import Laconic.Constant.Evaluate
import Laconic.Constant.Purity
import Laconic.Options.Compress
import Laconic.Error

/-!
# What compression knows

A compressor has the options and the symbols of the program it works on; its
progress is the list of warnings so far and the strictness of the functions
around the present place.
-/

namespace Laconic

/-- What one run of compression knows. -/
structure Compressor where
  options : CompressOptions
  tree : ScopeTree
  /-- Whether the names of the outermost scope are treated like others. -/
  toplevel : Bool
  ie8 : Bool
  /-- The name of the text of a place. -/
  fileName : Span → String

/-- How far compression has come. -/
structure Progress where
  /-- The warnings, the last one first. -/
  warnings : List Warning := []
  /-- Whether the functions around the present place are strict, from the inside
  out. -/
  strict : List Bool := []

abbrev Compressing := StateM Progress

namespace Compressor

/-- What may be assumed when expressions are evaluated. -/
def knowledge (c : Compressor) : Knowledge := ⟨some c.tree, c.options.builtins⟩

def purity (c : Compressor) : Purity :=
  ⟨c.tree, c.options.pureGetters, c.options.pureFunctions⟩

/-- Whether an expression holds as a condition, if that is known. -/
def truth? (c : Compressor) (e : Expr) : Option Bool := e.truth? c.knowledge

/-- Whether a name is declared nowhere. -/
def isUndeclared (c : Compressor) (id : Ident) : Bool :=
  (c.tree.symbolOf? id).all (·.undeclared)

def warn (c : Compressor) (notice : Notice) (loc : Span) : Compressing Unit :=
  modify fun p =>
    { p with
      warnings := ⟨notice, c.fileName loc, loc.start.line, loc.start.column⟩ :: p.warnings }

/-! ## Conditions -/

mutual

/-- Simplifies an expression of which only the truth counts: a double negation is
dropped. -/
def optimizeBool (c : Compressor) : Expr → Expr
  | .unary _ .not (.unary _ .not e) => optimizeBool c e
  | .logical loc op l r =>
    if op == .nullish then .logical loc op l r
    else .logical loc op (optimizeBool c l) (optimizeBool c r)
  | .conditional loc t x y => .conditional loc t (optimizeBool c x) (optimizeBool c y)
  | .sequence loc es => .sequence loc (optimizeLast c es)
  | e => e

def optimizeLast (c : Compressor) : List Expr → List Expr
  | [] => []
  | [e] => [optimizeBool c e]
  | e :: rest => e :: optimizeLast c rest

end

/-- Simplifies a condition, if the options ask for it. -/
def condition (c : Compressor) (e : Expr) : Expr :=
  if c.options.booleans then c.optimizeBool e else e

/-- The negation of a condition; a comparison absorbs it. -/
def negate (c : Compressor) : Expr → Expr
  | .unary loc op e => if op == .not then e else .mkNot (.unary loc op e)
  | .binary loc op l r =>
    match op.negated? with
    | some negated =>
      if c.options.comparisons then .binary loc negated l r else .mkNot (.binary loc op l r)
    | none => .mkNot (.binary loc op l r)
  | e => .mkNot e

end Compressor

def Expr.isNot : Expr → Bool
  | .unary _ op _ => op == .not
  | _ => false

mutual

/-- Whether a statement does nothing: it is empty, or a block of such. -/
def Stmt.isVoid : Stmt → Bool
  | .empty _ => true
  | .block ⟨_, body⟩ => Stmt.areVoid body
  | _ => false

def Stmt.areVoid : List Stmt → Bool
  | [] => true
  | s :: rest => s.isVoid && Stmt.areVoid rest

end

end Laconic
