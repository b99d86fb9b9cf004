import Laconic.Output.Piece
import Laconic.Tree.Access

/-!
# Laying out trees

The layout of every kind of node, with no more parentheses than the binding
strength of operators asks for.  An expression is laid out for a slot that needs
some least strength; what binds less tightly stands in parentheses there.
-/

namespace Laconic

/-! ## Binding strength -/

namespace Strength

def sequence : Nat := 0

/-- Assignments, arrow functions, `yield` and spreads. -/
def assign : Nat := 1

def conditional : Nat := 2

/-- The binary operators start above this. -/
def binary : Nat := 10

def unary : Nat := 23

/-- An update operator after its operand. -/
def postfixOp : Nat := 24

/-- A `new` without arguments, and chains with `?.` links. -/
def new : Nat := 25

def call : Nat := 26

/-- What needs no parentheses anywhere. -/
def primary : Nat := 30

end Strength

namespace Expr

/-- How tightly the outermost operator of an expression binds. -/
def strength : Expr → Nat
  | .sequence .. => Strength.sequence
  | .assign .. | .arrow _ | .yield .. | .spread .. => Strength.assign
  | .conditional .. => Strength.conditional
  | .logical _ op _ _ => Strength.binary + op.precedence
  | .binary _ op _ _ => Strength.binary + op.precedence
  | .unary .. | .await .. => Strength.unary
  | .update _ _ before _ => if before then Strength.unary else Strength.postfixOp
  | .chain .. => Strength.new
  | .new .. | .call .. | .member .. | .tagged .. | .importCall .. => Strength.call
  | .num _ value =>
    if value.isInf then Strength.binary + BinaryOp.div.precedence
    else if Number.signBit value && !value.isNaN then Strength.unary
    else Strength.primary
  | _ => Strength.primary

def isInOperation : Expr → Bool
  | .binary _ .in _ _ => true
  | _ => false

def isFunction : Expr → Bool
  | .function _ => true
  | _ => false

/-- Whether the callee of a `new` holds a call, which would take its
arguments. -/
def containsCall : Expr → Bool
  | .call .. => true
  | .member _ _ o _ => o.containsCall
  | .tagged _ tag _ _ _ => tag.containsCall
  | _ => false

def isLet : Expr → Bool
  | .ident id => id.name == "let"
  | _ => false

mutual

/-- Whether an expression begins with something that starts another kind of
statement: a brace, a function, a class or `let [`. -/
def startsStatement (o : OutputOptions) : Expr → Bool
  | .object .. | .function _ | .class _ => true
  | .member _ _ e p =>
    (p matches .computed _) && e.isLet
      || Strength.call ≤ e.strength && e.startsStatement o
  | .call _ _ _ e _ =>
    !(o.wrapIife && e.isFunction) && Strength.call ≤ e.strength && e.startsStatement o
  | .tagged _ e _ _ _ => Strength.call ≤ e.strength && e.startsStatement o
  | .binary _ op e _ =>
    Strength.binary + op.precedence + (if op == .exp then 1 else 0) ≤ e.strength
      && e.startsStatement o
  | .logical _ op e _ => Strength.binary + op.precedence ≤ e.strength && e.startsStatement o
  | .conditional _ e _ _ => Strength.conditional + 1 ≤ e.strength && e.startsStatement o
  | .sequence _ es => firstStartsStatement o es
  | .assign _ _ (.expr e) _ => Strength.call ≤ e.strength && e.startsStatement o
  | .assign _ _ (.object ..) _ => true
  | .update _ _ before e => !before && Strength.call ≤ e.strength && e.startsStatement o
  | .chain _ e => e.startsStatement o
  | _ => false

/-- Whether the first of the items of a sequence begins so. -/
def firstStartsStatement (o : OutputOptions) : List Expr → Bool
  | [] => false
  | e :: _ => Strength.assign ≤ e.strength && e.startsStatement o

end

end Expr

namespace Stmt

mutual

/-- Whether an `else` after a statement would belong to an `if` in it. -/
def dangles : Stmt → Bool
  | .if _ _ _ alternate => danglesOpt alternate
  | .for _ _ _ _ body | .forIn _ _ _ body | .forOf _ _ _ _ body | .while _ _ body
  | .labeled _ _ body | .with _ _ body => body.dangles
  | _ => false

/-- Whether an `else` after the last branch of an `if` would belong to an `if`
in it. -/
def danglesOpt : Option Stmt → Bool
  | none => true
  | some s => s.dangles

end

def isBlock : Stmt → Bool
  | .block _ => true
  | _ => false

def isIf : Stmt → Bool
  | .if .. => true
  | _ => false

end Stmt

namespace Layout

/-! ## Leaves -/

def ident (o : OutputOptions) (id : Ident) : Layout :=
  ofPieces [.map id.loc (some id.name), .token (Spelling.name o id.name)]

def privateName (o : OutputOptions) (name : String) : Layout :=
  token ("#" ++ Spelling.name o name)

def string (o : OutputOptions) (lit : StringLit) : Layout :=
  token (lit.raw.getD (Spelling.quote o lit.value))

/-- A number.  Infinity is written as a division. -/
def number (x : Float) : Layout :=
  if x.isNaN then token "NaN"
  else if x.isInf then token (if 0 < x then "1" else "-1") ++ token "/" ++ token "0"
  else if Number.signBit x then token "-" ++ token (Spelling.numeral (-x))
  else token (Spelling.numeral x)

/-- A directive.  It is written as it stands in the source if other quotes would
change it. -/
def directive (raw : String) : Layout :=
  let value := directiveValue raw
  if value.toList.any fun c => c == '"' || c == '\\' || c == '\n' || c == '\r' then token raw
  else token ("\"" ++ value ++ "\"")

/-- Whether a number is written with digits only, so that a point after it would
be part of it. -/
def isDigitsOnly : Expr → Bool
  | .num _ x =>
    x.isFinite && !Number.signBit x && (Spelling.numeral x).toList.all Char.isDigit
  | _ => false

/-- The parts of a template with the layouts of its expressions between them. -/
def templateParts (o : OutputOptions) : List Quasi → List Layout → Layout
  | [], _ => ∅
  | q :: qs, [] => raw (Spelling.escapeText o q.raw) ++ templateParts o qs []
  | q :: qs, e :: es =>
    raw (Spelling.escapeText o q.raw) ++ raw "$\x7b" ++ guarded e ++ raw "\x7d"
      ++ templateParts o qs es

def template (o : OutputOptions) (qs : List Quasi) (es : List Layout) : Layout :=
  token "`" ++ templateParts o qs es ++ raw "`"

/-- The elements of an array, of which the last one may be left out. -/
def bracketed (ls : List Layout) (trailingHole : Bool) : Layout :=
  token "[" ++ commaList ls ++ onlyIf trailingHole (token ",") ++ token "]"

/-- A layout for a slot that needs a least strength. -/
def slot (least : Nat) (e : Expr) (inner : Nat → Layout) : Layout := fun noIn =>
  if e.strength < least || noIn && e.isInOperation then parens (inner Strength.sequence) noIn
  else inner least noIn

/-- An operand of a logical operator; `right` says on which side.  Other logical
operators stand in parentheses beside `??`, and an operand on the right with the
same operator needs none. -/
def logicalOperand (op : LogicalOp) (e : Expr) (right : Bool) (inner : Nat → Layout) : Layout :=
  let level := Strength.binary + op.precedence
  match e with
  | .logical _ op' _ _ =>
    if op == .nullish && op' != .nullish then parens (inner Strength.sequence)
    else
      let same := op' == op && op != .nullish
      slot (if right && !same then level + 1 else level) e inner
  | _ => slot (if right then level + 1 else level) e inner

/-- What stands before a statement: the comments before its place. -/
def lead (loc : Span) : Layout := ofPieces [.comments loc, .map loc none]

def jumpLabel (o : OutputOptions) : Option Ident → Layout
  | some id => space ++ ident o id
  | none => ∅

/-- A name by which modules exchange a variable. -/
def moduleName (o : OutputOptions) : ModuleName → Layout
  | .ident id => ident o id
  | .str lit => string o lit

def moduleText : ModuleName → String
  | .ident id => id.name
  | .str lit => lit.value

/-- Whether a property of an object can be written as a name alone. -/
def isShorthand (o : OutputOptions) : PropName → Expr → Bool
  | .ident k, .ident v => 2015 ≤ o.ecma && !o.quoteKeys && k.name == v.name
  | _, _ => false

/-- Whether a property of an object pattern can be written as a name alone. -/
def isPatShorthand (o : OutputOptions) : PropName → Pat → Bool
  | .ident k, .ident v => !o.quoteKeys && k.name == v.name
  | .ident k, .assign _ (.ident v) _ => !o.quoteKeys && k.name == v.name
  | _, _ => false

def methodWords (kind : MethodKind) (isAsync isGenerator : Bool) : Layout :=
  match kind with
  | .get => token "get" ++ space
  | .set => token "set" ++ space
  | _ => onlyIf isAsync (token "async" ++ space) ++ onlyIf isGenerator (token "*")

def arrowParams (o : OutputOptions) (ps : List Pat) (ls : List Layout) : Layout :=
  match ps with
  | [.ident id] => space ++ ident o id
  | _ => token "(" ++ commaList ls ++ token ")"

/-- The body of a loop or branch, on a line of its own in indented output unless
it is a block. -/
def body (o : OutputOptions) (s : Stmt) (l : Layout) : Layout :=
  if s.isBlock || !o.beautify then space ++ l else indented (newline ++ l)

/-- The head of a statement: a word and something in parentheses. -/
def head (word : String) (inner : Layout) : Layout :=
  token word ++ space ++ token "(" ++ inner ++ token ")"

/-- The first branch of an `if` that has a second one.  It stands in braces if
the `else` would otherwise belong to an `if` in it. -/
def branch (o : OutputOptions) (s : Stmt) (l : Layout) : Layout :=
  if s.dangles then
    space ++ token "\x7b" ++ indented (newline ++ l) ++ newline ++ token "\x7d" ++ space
  else body o s l ++ (if s.isBlock then space else newline)

/-! ## Imports and exports -/

/-- The local names of the default and of the module as a whole; the flag says
whether something stands before them. -/
def importNames (o : OutputOptions) : Bool → List ImportSpecifier → Layout
  | _, [] => ∅
  | _, .default id :: rest => space ++ ident o id ++ importNames o true rest
  | started, .namespace id :: rest =>
    onlyIf started comma ++ space ++ token "*" ++ operator "as" ++ ident o id
      ++ importNames o true rest
  | started, .named .. :: rest => importNames o started rest

def importNamed (o : OutputOptions) : List ImportSpecifier → List Layout
  | [] => []
  | .named imported id :: rest =>
    (onlyIf (moduleText imported != id.name) (moduleName o imported ++ token "as") ++ ident o id)
      :: importNamed o rest
  | _ :: rest => importNamed o rest

def importDecl (o : OutputOptions) (specifiers : List ImportSpecifier) (source : StringLit) :
    Layout :=
  let named := importNamed o specifiers
  let started := named.length < specifiers.length
  token "import" ++ importNames o false specifiers
    ++ onlyIf (!named.isEmpty)
      (onlyIf started comma ++ token "\x7b" ++ commaList named ++ token "\x7d")
    ++ onlyIf (!specifiers.isEmpty) (space ++ token "from")
    ++ space ++ string o source ++ semi

def exportSpecifier (o : OutputOptions) (x : ExportSpecifier) : Layout :=
  moduleName o x.name
    ++ onlyIf (moduleText x.name != moduleText x.exported) (token "as" ++ moduleName o x.exported)

/-- The module that something is exported from. -/
def fromSource (o : OutputOptions) : Option StringLit → Layout
  | some source => space ++ token "from" ++ space ++ string o source
  | none => ∅

def exportNamed (o : OutputOptions) (specifiers : List ExportSpecifier)
    (source : Option StringLit) : Layout :=
  token "export" ++ space ++ token "\x7b" ++ commaList (specifiers.map (exportSpecifier o))
    ++ token "\x7d" ++ fromSource o source ++ semi

def exportAll (o : OutputOptions) (exported : Option ModuleName) (source : StringLit) : Layout :=
  token "export" ++ space ++ token "*"
    ++ (match exported with | some name => operator "as" ++ moduleName o name | none => ∅)
    ++ fromSource o (some source) ++ semi

/-! ## Nodes -/

mutual

/-- An expression, for a slot that needs no more than `least`. -/
def inner (o : OutputOptions) (least : Nat) : Expr → Layout
  | .null loc => map loc ++ token "null"
  | .bool loc value => map loc ++ token (if value then "true" else "false")
  | .num loc value => map loc ++ number value
  | .str lit => map lit.loc ++ string o lit
  | .bigint loc digits => map loc ++ token (digits ++ "n")
  | .regexp loc pattern flags => map loc ++ token (Spelling.regexp o pattern flags)
  | .template loc qs es => map loc ++ template o qs (exprs o Strength.sequence es)
  | .ident id => ident o id
  | .this loc => map loc ++ token "this"
  | .super loc => map loc ++ token "super"
  | .array loc es =>
    map loc ++ bracketed (elements o es) (es.getLast?.any (·.isNone))
  | .object loc ps => map loc ++ token "\x7b" ++ commaList (properties o ps) ++ token "\x7d"
  | .function f => map f.loc ++ func o f
  | .arrow a => map a.loc ++ arrow o a
  | .class c => map c.loc ++ classDef o c
  | .unary loc op e =>
    map loc ++ token op.text ++ onlyIf (op.text.toList.any Char.isAlpha) space
      ++ slot Strength.unary e (inner o · e)
  | .update loc op before e =>
    let operand := slot Strength.call e (inner o · e)
    map loc ++ if before then token op.text ++ operand else operand ++ token op.text
  | .binary loc op l r =>
    let level := Strength.binary + op.precedence
    let leftLevel := if op == .exp then max level Strength.postfixOp else level
    let rightLevel := if op == .exp then level else level + 1
    map loc ++ slot leftLevel l (inner o · l) ++ operator op.text
      ++ slot rightLevel r (inner o · r)
  | .logical loc op l r =>
    map loc ++ logicalOperand op l false (inner o · l) ++ operator op.text
      ++ logicalOperand op r true (inner o · r)
  | .conditional loc t c a =>
    map loc ++ slot (Strength.conditional + 1) t (inner o · t) ++ operator "?"
      ++ guarded (slot Strength.assign c (inner o · c)) ++ operator ":"
      ++ slot Strength.assign a (inner o · a)
  | .assign loc op (.expr e) v =>
    map loc ++ slot Strength.call e (inner o · e) ++ operator op.text
      ++ slot Strength.assign v (inner o · v)
  | .assign loc op p v =>
    map loc ++ pat o p ++ operator op.text ++ slot Strength.assign v (inner o · v)
  | .sequence loc es => map loc ++ commaList (exprs o Strength.assign es)
  | .member loc optional e p =>
    map loc ++ slot Strength.call e (inner o · e) ++ member o optional (isDigitsOnly e) p
  | .call loc optional _ e es =>
    map loc
      ++ (if o.wrapIife && e.isFunction then parens (inner o Strength.sequence e)
        else slot Strength.call e (inner o · e))
      ++ onlyIf optional (token "?.") ++ parens (commaList (exprs o Strength.assign es))
  | .new loc _ e es =>
    map loc ++ token "new" ++ space
      ++ (if e.containsCall then parens (inner o Strength.sequence e)
        else slot Strength.call e (inner o · e))
      ++ onlyIf (!es.isEmpty || Strength.new < least)
        (parens (commaList (exprs o Strength.assign es)))
  | .chain loc e => map loc ++ inner o least e
  | .tagged loc e _ qs es =>
    map loc ++ slot Strength.call e (inner o · e)
      ++ template o qs (exprs o Strength.sequence es)
  | .spread loc e => map loc ++ token "..." ++ slot Strength.assign e (inner o · e)
  | .yield loc delegate e =>
    map loc ++ token "yield" ++ onlyIf delegate (token "*") ++ optExpr o Strength.assign space e
  | .await loc e => map loc ++ token "await" ++ space ++ slot Strength.unary e (inner o · e)
  | .importCall loc e options =>
    map loc ++ token "import" ++ token "(" ++ slot Strength.assign e (inner o · e)
      ++ optExpr o Strength.assign comma options ++ token ")"
  | .metaProperty loc p => map loc ++ token p.text

def optExpr (o : OutputOptions) (least : Nat) (before : Layout) : Option Expr → Layout
  | some e => before ++ slot least e (inner o · e)
  | none => ∅

def exprs (o : OutputOptions) (least : Nat) : List Expr → List Layout
  | [] => []
  | e :: rest => slot least e (inner o · e) :: exprs o least rest

def elements (o : OutputOptions) : List (Option Expr) → List Layout
  | [] => []
  | some e :: rest => slot Strength.assign e (inner o · e) :: elements o rest
  | none :: rest => ∅ :: elements o rest

/-- The access to a property, after the object. -/
def member (o : OutputOptions) (optional digits : Bool) : PropName → Layout
  | .privateName _ name => token (if optional then "?." else ".") ++ privateName o name
  | .computed e =>
    onlyIf optional (token "?.") ++ token "["
      ++ guarded (slot Strength.sequence e (inner o · e)) ++ token "]"
  | .ident id =>
    (if optional then token "?." else onlyIf digits (raw ".") ++ token ".") ++ ident o id
  | .str lit => token "[" ++ string o lit ++ token "]"
  | .num _ value => token "[" ++ number value ++ token "]"

def propName (o : OutputOptions) : PropName → Layout
  | .ident id =>
    if o.quoteKeys then token (Spelling.quote o id.name)
    else map id.loc ++ token (Spelling.name o id.name)
  | .privateName _ name => privateName o name
  | .str lit =>
    if !o.quoteKeys && lit.raw.isNone && isIdentifierName lit.value then
      token (Spelling.name o lit.value)
    else string o lit
  | .num _ value =>
    if o.quoteKeys then token (Spelling.quote o (Number.text value)) else number value
  | .computed e => token "[" ++ slot Strength.assign e (inner o · e) ++ token "]"

def properties (o : OutputOptions) : List Property → List Layout
  | [] => []
  | .value _ key e :: rest =>
    let value := slot Strength.assign e (inner o · e)
    (if isShorthand o key e then value else propName o key ++ token ":" ++ space ++ value)
      :: properties o rest
  | .getter _ key f :: rest => method o .get (propName o key) f :: properties o rest
  | .setter _ key f :: rest => method o .set (propName o key) f :: properties o rest
  | .method _ key f :: rest => method o .method (propName o key) f :: properties o rest
  | .spread _ e :: rest =>
    (token "..." ++ slot Strength.assign e (inner o · e)) :: properties o rest

def method (o : OutputOptions) (kind : MethodKind) (key : Layout) : Func → Layout
  | ⟨_, _, isAsync, isGenerator, ps, ⟨_, body⟩⟩ =>
    methodWords kind isAsync isGenerator ++ key ++ token "(" ++ commaList (pats o ps)
      ++ token ")" ++ space ++ guarded (braced (stmts o body))

def func (o : OutputOptions) : Func → Layout
  | ⟨_, id, isAsync, isGenerator, ps, ⟨_, body⟩⟩ =>
    onlyIf isAsync (token "async") ++ token "function" ++ onlyIf isGenerator (token "*")
      ++ (match id with | some id => space ++ ident o id | none => ∅)
      ++ token "(" ++ commaList (pats o ps) ++ token ")" ++ space ++ guarded (braced (stmts o body))

def arrow (o : OutputOptions) : Arrow → Layout
  | ⟨_, isAsync, ps, .block ⟨_, body⟩⟩ =>
    onlyIf isAsync (token "async") ++ arrowParams o ps (pats o ps) ++ operator "=>"
      ++ guarded (braced (stmts o body))
  | ⟨_, isAsync, ps, .expr e⟩ =>
    onlyIf isAsync (token "async") ++ arrowParams o ps (pats o ps) ++ operator "=>"
      ++ (if e.startsStatement o then parens (inner o Strength.sequence e)
        else slot Strength.assign e (inner o · e))

def classDef (o : OutputOptions) : ClassDef → Layout
  | ⟨_, id, superClass, body⟩ =>
    token "class"
      ++ (match id with | some id => space ++ ident o id | none => ∅)
      ++ optExpr o Strength.call (space ++ token "extends" ++ space) superClass
      ++ space ++ braced (members o body)

def members (o : OutputOptions) : List Member → List Layout
  | [] => []
  | .method _ isStatic kind key f :: rest =>
    (onlyIf isStatic (token "static" ++ space) ++ method o kind (propName o key) f) ::
      members o rest
  | .property _ isStatic key e :: rest =>
    (onlyIf isStatic (token "static" ++ space) ++ propName o key
      ++ optExpr o Strength.assign (operator "=") e ++ semi) :: members o rest
  | .staticBlock _ body :: rest =>
    (token "static" ++ space ++ braced (stmts o body)) :: members o rest

def pat (o : OutputOptions) : Pat → Layout
  | .ident id => ident o id
  | .array _ ps => bracketed (patElements o ps) (ps.getLast?.any (·.isNone))
  | .object _ ps => token "\x7b" ++ commaList (patProperties o ps) ++ token "\x7d"
  | .rest _ p => token "..." ++ pat o p
  | .assign _ p e => pat o p ++ operator "=" ++ slot Strength.assign e (inner o · e)
  | .expr e => slot Strength.call e (inner o · e)

def pats (o : OutputOptions) : List Pat → List Layout
  | [] => []
  | p :: rest => pat o p :: pats o rest

def patElements (o : OutputOptions) : List (Option Pat) → List Layout
  | [] => []
  | some p :: rest => pat o p :: patElements o rest
  | none :: rest => ∅ :: patElements o rest

def patProperties (o : OutputOptions) : List PatProperty → List Layout
  | [] => []
  | .keyValue _ key p :: rest =>
    (onlyIf (!isPatShorthand o key p) (propName o key ++ token ":" ++ space) ++ pat o p)
      :: patProperties o rest
  | .rest _ p :: rest => (token "..." ++ pat o p) :: patProperties o rest

def varDecl (o : OutputOptions) : VarDecl → Layout
  | ⟨_, kind, ds⟩ => token kind.text ++ space ++ commaList (declarators o ds)

def declarators (o : OutputOptions) : List Declarator → List Layout
  | [] => []
  | ⟨_, p, e⟩ :: rest =>
    (pat o p ++ optExpr o Strength.assign (operator "=") e) :: declarators o rest

def forInit (o : OutputOptions) : ForInit → Layout
  | .none => ∅
  | .decl d => setNoIn true ++ varDecl o d ++ setNoIn false
  | .expr e => setNoIn true ++ slot Strength.sequence e (inner o · e) ++ setNoIn false

def forTarget (o : OutputOptions) : ForTarget → Layout
  | .decl d => varDecl o d
  | .pat p => pat o p

def switchCases (o : OutputOptions) : List SwitchCase → List Layout
  | [] => []
  | ⟨_, some test, body⟩ :: rest =>
    (token "case" ++ space ++ slot Strength.sequence test (inner o · test) ++ token ":"
      ++ indented (concat ((stmts o body).map (newline ++ ·)))) :: switchCases o rest
  | ⟨_, none, body⟩ :: rest =>
    (token "default" ++ token ":" ++ indented (concat ((stmts o body).map (newline ++ ·))))
      :: switchCases o rest

def handler (o : OutputOptions) : Option Handler → Layout
  | none => ∅
  | some ⟨_, none, ⟨_, body⟩⟩ => space ++ token "catch" ++ space ++ braced (stmts o body)
  | some ⟨_, some p, ⟨_, body⟩⟩ =>
    space ++ token "catch" ++ space ++ token "(" ++ pat o p ++ token ")" ++ space
      ++ braced (stmts o body)

/-- What runs after a `try` in any case, if anything does. -/
def finalizer (o : OutputOptions) : Option Block → Layout
  | none => ∅
  | some ⟨_, body⟩ => space ++ token "finally" ++ space ++ braced (stmts o body)

def stmt (o : OutputOptions) : Stmt → Layout
  | .block ⟨loc, body⟩ => lead loc ++ braced (stmts o body)
  | .varDecl d => lead d.loc ++ varDecl o d ++ semi
  | .function f => lead f.loc ++ func o f
  | .class c => lead c.loc ++ classDef o c
  | .expr loc e =>
    lead loc
      ++ (if (e matches .str _) || e.startsStatement o then parens (inner o Strength.sequence e)
        else slot Strength.sequence e (inner o · e))
      ++ semi
  | .if loc test c a =>
    lead loc ++ head "if" (slot Strength.sequence test (inner o · test))
      ++ (if a.isNone then body o c (stmt o c) else branch o c (stmt o c)) ++ alternate o a
  | .for loc init test update b =>
    lead loc
      ++ head "for" (forInit o init ++ token ";" ++ optExpr o Strength.sequence space test
        ++ token ";" ++ optExpr o Strength.sequence space update)
      ++ body o b (stmt o b)
  | .forIn loc target e b =>
    lead loc
      ++ head "for" (forTarget o target ++ token "in" ++ slot Strength.sequence e (inner o · e))
      ++ body o b (stmt o b)
  | .forOf loc isAwait target e b =>
    lead loc ++ token "for" ++ onlyIf isAwait (token "await") ++ space ++ token "("
      ++ forTarget o target ++ token "of" ++ slot Strength.assign e (inner o · e) ++ token ")"
      ++ body o b (stmt o b)
  | .while loc test b =>
    lead loc ++ head "while" (slot Strength.sequence test (inner o · test)) ++ body o b (stmt o b)
  | .doWhile loc b test =>
    lead loc ++ token "do" ++ body o b (stmt o b) ++ space
      ++ head "while" (slot Strength.sequence test (inner o · test)) ++ semi
  | .switch loc e cases =>
    lead loc ++ head "switch" (slot Strength.sequence e (inner o · e)) ++ space ++ token "\x7b"
      ++ concat ((switchCases o cases).map (newline ++ ·)) ++ onlyIf (!cases.isEmpty) newline
      ++ token "\x7d"
  | .try loc ⟨_, body⟩ h f =>
    lead loc ++ token "try" ++ space ++ braced (stmts o body) ++ handler o h ++ finalizer o f
  | .return loc e => lead loc ++ token "return" ++ optExpr o Strength.sequence space e ++ semi
  | .throw loc e =>
    lead loc ++ token "throw" ++ space ++ slot Strength.sequence e (inner o · e) ++ semi
  | .break loc label => lead loc ++ token "break" ++ jumpLabel o label ++ semi
  | .continue loc label => lead loc ++ token "continue" ++ jumpLabel o label ++ semi
  | .labeled loc label b => lead loc ++ ident o label ++ token ":" ++ body o b (stmt o b)
  | .with loc e b =>
    lead loc ++ head "with" (slot Strength.sequence e (inner o · e)) ++ body o b (stmt o b)
  | .debugger loc => lead loc ++ token "debugger" ++ semi
  | .empty loc => lead loc ++ token ";"
  | .directive loc raw => lead loc ++ directive raw ++ semi
  | .importDecl loc specifiers source => lead loc ++ importDecl o specifiers source
  | .exportNamed loc specifiers source => lead loc ++ exportNamed o specifiers source
  | .exportDecl loc s => lead loc ++ token "export" ++ space ++ stmt o s
  | .exportFunction loc f => lead loc ++ token "export" ++ token "default" ++ space ++ func o f
  | .exportClass loc c => lead loc ++ token "export" ++ token "default" ++ space ++ classDef o c
  | .exportExpr loc e =>
    lead loc ++ token "export" ++ token "default" ++ space
      ++ (if e.startsStatement o then parens (inner o Strength.sequence e)
        else slot Strength.assign e (inner o · e))
      ++ semi
  | .exportAll loc exported source => lead loc ++ exportAll o exported source

def alternate (o : OutputOptions) : Option Stmt → Layout
  | none => ∅
  | some s =>
    token "else" ++ if s.isIf then space ++ stmt o s else body o s (stmt o s)

def stmts (o : OutputOptions) : List Stmt → List Layout
  | [] => []
  | s :: rest => stmt o s :: stmts o rest

end

end Layout

end Laconic
