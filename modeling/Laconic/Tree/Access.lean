import Laconic.Tree.Basic

/-!
# Making nodes and asking about them

Places of nodes, the nodes that rewritings make, and simple questions that
need no more than the shape of a node.
-/

namespace Laconic

/-! ## Expressions -/

namespace Expr

def loc : Expr → Span
  | .null loc | .bool loc _ | .num loc _ | .bigint loc _ | .regexp loc _ _ | .template loc _ _
  | .this loc | .super loc | .array loc _ | .object loc _ | .unary loc _ _ | .update loc _ _ _
  | .binary loc _ _ _ | .logical loc _ _ _ | .conditional loc _ _ _ | .assign loc _ _ _
  | .sequence loc _ | .member loc _ _ _ | .call loc _ _ _ _ | .new loc _ _ _ | .chain loc _
  | .tagged loc _ _ _ _ | .spread loc _ | .yield loc _ _ | .await loc _ | .importCall loc _ _
  | .metaProperty loc _ => loc
  | .str lit => lit.loc
  | .ident id => id.loc
  | .function f => f.loc
  | .arrow a => a.loc
  | .class c => c.loc

def ofString (value : String) (loc : Span) : Expr := .str ⟨loc, value, none⟩

/-- A name that is not bound yet. -/
def ofName (name : String) (loc : Span) : Expr := .ident ⟨loc, name, none⟩

/-- The undefined value, written as `void 0`. -/
def undefined (loc : Span) : Expr := .unary loc .void (.num loc 0)

/-- The negation of an expression, at its place. -/
def mkNot (e : Expr) : Expr := .unary e.loc .not e

/-- An operation on two operands, at their place. -/
def mkBinary (op : BinaryOp) (left right : Expr) : Expr :=
  .binary (left.loc.upTo right.loc) op left right

/-- A logical operation on two operands, at their place. -/
def mkLogical (op : LogicalOp) (left right : Expr) : Expr :=
  .logical (left.loc.upTo right.loc) op left right

/-- A choice between two expressions, at their place. -/
def mkConditional (test consequent alternate : Expr) : Expr :=
  .conditional (test.loc.upTo alternate.loc) test consequent alternate

/-- The items of a sequence, or the expression itself. -/
def items : Expr → List Expr
  | .sequence _ es => es
  | e => [e]

/-- Expressions one after the other.  Sequences among them are opened, and a
single expression stands for itself. -/
def mkSequence (es : List Expr) : Expr :=
  match es.flatMap items with
  | [] => .sequence .nowhere []
  | [e] => e
  | e :: rest => .sequence (e.loc.upTo ((rest.getLast?.getD e).loc)) (e :: rest)

/-- Whether an expression is a literal constant, or `void`, `!` or `-` of
one. -/
def isConstant : Expr → Bool
  | .null _ | .bool _ _ | .num _ _ | .str _ | .bigint _ _ => true
  | .unary _ op e => (op == .void || op == .not || op == .minus) && e.isConstant
  | _ => false

/-- Whether an expression is `void` of a constant. -/
def isUndefined : Expr → Bool
  | .unary _ op e => op == .void && e.isConstant
  | _ => false

def ident? : Expr → Option Ident
  | .ident id => some id
  | _ => none

end Expr

/-! ## Patterns -/

namespace Pat

def loc : Pat → Span
  | .ident id => id.loc
  | .array loc _ | .object loc _ | .rest loc _ | .assign loc _ _ => loc
  | .expr e => e.loc

def targetIdent? : Pat → Option Ident
  | .expr e => e.ident?
  | _ => none

mutual

/-- The identifiers that a pattern declares, in order. -/
def boundNames : Pat → List Ident
  | .ident id => [id]
  | .array _ elements => boundNamesElements elements
  | .object _ properties => boundNamesProperties properties
  | .rest _ p | .assign _ p _ => boundNames p
  | .expr _ => []

def boundNamesElements : List (Option Pat) → List Ident
  | [] => []
  | none :: more => boundNamesElements more
  | some p :: more => boundNames p ++ boundNamesElements more

def boundNamesProperties : List PatProperty → List Ident
  | [] => []
  | .keyValue _ _ p :: more => boundNames p ++ boundNamesProperties more
  | .rest _ p :: more => boundNames p ++ boundNamesProperties more

end

end Pat

def VarDecl.boundNames (d : VarDecl) : List Ident := d.declarators.flatMap (·.target.boundNames)

/-! ## Statements -/

namespace Stmt

def loc : Stmt → Span
  | .block b => b.loc
  | .varDecl d => d.loc
  | .function f => f.loc
  | .class c => c.loc
  | .expr loc _ | .if loc _ _ _ | .for loc _ _ _ _ | .forIn loc _ _ _ | .forOf loc _ _ _ _
  | .while loc _ _ | .doWhile loc _ _ | .switch loc _ _ | .try loc _ _ _ | .return loc _
  | .throw loc _ | .break loc _ | .continue loc _ | .labeled loc _ _ | .with loc _ _
  | .debugger loc | .empty loc | .directive loc _ | .importDecl loc _ _ | .exportNamed loc _ _
  | .exportDecl loc _ | .exportFunction loc _ | .exportClass loc _ | .exportExpr loc _
  | .exportAll loc _ _ => loc

/-- An expression as a statement, at its place. -/
def ofExpr (e : Expr) : Stmt := .expr e.loc e

/-- Whether a statement declares names for the block around it only. -/
def isLexical : Stmt → Bool
  | .varDecl d => d.kind != .var
  | .class _ | .function _ => true
  | _ => false

/-- Statements as one statement: the only one if it needs no block, else a
block. -/
def blockOrSingle (loc : Span) (body : List Stmt) : Stmt :=
  match body with
  | [s] => if s.isLexical then .block ⟨loc, [s]⟩ else s
  | body => .block ⟨loc, body⟩

def isEmpty : Stmt → Bool
  | .empty _ => true
  | _ => false

/-- Whether a statement never lets the next one run. -/
def isJump : Stmt → Bool
  | .return .. | .throw .. | .break .. | .continue .. => true
  | _ => false

/-- The source text of a directive. -/
def directive? : Stmt → Option String
  | .directive _ raw => some raw
  | _ => none

end Stmt

/-- What a directive says: its source text without the quotes. -/
def directiveValue (raw : String) : String :=
  String.ofList (raw.toList.drop 1).dropLast

/-- What the directives at the head of a body say. -/
def directives : List Stmt → List String
  | .directive _ raw :: rest => directiveValue raw :: directives rest
  | _ => []

def hasDirective (body : List Stmt) (name : String) : Bool := (directives body).contains name

/-! ## Programs -/

namespace Program

def empty : Program := ⟨.nowhere, .script, [], [], none, []⟩

/-- The name of the text that a place is in. -/
def fileName (p : Program) (loc : Span) : String := p.files.getD loc.file ""

/-- One program after another. -/
def append (p q : Program) : Program :=
  let first := p.body.isEmpty && p.files.isEmpty
  { loc := if first then q.loc else p.loc.upTo q.loc
    kind := if q.kind == .module then .module else p.kind
    body := p.body ++ q.body
    comments := p.comments ++ q.comments
    shebang := if first then q.shebang else p.shebang
    files := p.files ++ q.files }

end Program

end Laconic
