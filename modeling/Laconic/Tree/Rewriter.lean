import Laconic.Tree.Nodes

/-!
# Changing a tree

A rewriter is asked twice about every statement and expression: before its parts
are rewritten and after.  It may keep the node, put another one or several in
its place, or remove it.  It is also shown every list of statements once the
statements are done, and told when a function begins and ends.

In a list any number of nodes can take the place of one.  Where one statement is
needed, a removed one becomes `;` and several become a block; where one
expression is needed, a removed one becomes `void 0` and several become a
sequence.

What is assigned or counted up is a target and no value: only the object and the
computed name of a member among the targets are rewritten.
-/

namespace Laconic

/-- What is to be done with a node. -/
inductive Action (α : Type) where
  | keep
  /-- Put this node in its place. -/
  | replace (node : α)
  | remove
  /-- Put these nodes in its place. -/
  | splice (nodes : List α)
  /-- Keep it as it is, parts and all. -/
  | stop

/-- What has become of a node. -/
inductive Outcome (α : Type) where
  | one (node : α)
  | gone
  | many (nodes : List α)

namespace Outcome

/-- The nodes that take the place of one in a list. -/
def toList {α : Type} : Outcome α → List α
  | .one a => [a]
  | .gone => []
  | .many as => as

/-- The statement that stands where one is needed. -/
def toStmt (loc : Span) : Outcome Stmt → Stmt
  | .one s => s
  | .gone => .empty loc
  | .many body => .block ⟨loc, body⟩

/-- The expression that stands where one is needed. -/
def toExpr (loc : Span) : Outcome Expr → Expr
  | .one e => e
  | .gone | .many [] => .undefined loc
  | .many es => .mkSequence es

end Outcome

/-- What has become of a node, by what was to be done with it in the end. -/
def Action.settle {α : Type} (node : α) : Action α → Outcome α
  | .keep | .stop => .one node
  | .replace new => .one new
  | .remove => .gone
  | .splice nodes => .many nodes

/-- A way of changing a tree, with a state. -/
structure Rewriter (σ : Type) where
  beforeStmt : Stmt → StateM σ (Action Stmt) := fun _ => pure .keep
  afterStmt : Stmt → StateM σ (Action Stmt) := fun _ => pure .keep
  beforeExpr : Expr → StateM σ (Action Expr) := fun _ => pure .keep
  afterExpr : Expr → StateM σ (Action Expr) := fun _ => pure .keep
  /-- Changes a list of statements once they are all rewritten. -/
  afterStmts : BodyKind → List Stmt → StateM σ (List Stmt) := fun _ list => pure list
  /-- Whether a function is rewritten at all. -/
  enterFunction : Func → StateM σ Bool := fun _ => pure true
  leaveFunction : Func → StateM σ Unit := fun _ => pure ()
  enterArrow : Arrow → StateM σ Bool := fun _ => pure true
  leaveArrow : Arrow → StateM σ Unit := fun _ => pure ()

/-- How the nodes are rewritten that a rewriter puts in the place of others
before their parts are. -/
structure Newcomers (σ : Type) where
  stmt : Stmt → StateM σ (Outcome Stmt)
  expr : Expr → StateM σ (Outcome Expr)

namespace Rewriter

variable {σ : Type}

/-! ## One node -/

def finishStmt (r : Rewriter σ) (parts : StateM σ Stmt) : StateM σ (Outcome Stmt) := do
  let s ← parts
  return (← r.afterStmt s).settle s

/-- Ends the rewriting of an expression whose parts are rewritten by `parts`. -/
def finishExpr (r : Rewriter σ) (parts : StateM σ Expr) : StateM σ (Outcome Expr) := do
  let e ← parts
  return (← r.afterExpr e).settle e

def processStmt (r : Rewriter σ) (n : Newcomers σ) (s : Stmt) (parts : StateM σ Stmt) :
    StateM σ (Outcome Stmt) := do
  match ← r.beforeStmt s with
  | .keep => r.finishStmt parts
  | .replace new => n.stmt new
  | .remove => return .gone
  | .stop => return .one s
  | .splice nodes => return .many ((← nodes.mapM n.stmt).flatMap Outcome.toList)

def processExpr (r : Rewriter σ) (n : Newcomers σ) (e : Expr) (parts : StateM σ Expr) :
    StateM σ (Outcome Expr) := do
  match ← r.beforeExpr e with
  | .keep => r.finishExpr parts
  | .replace new => n.expr new
  | .remove => return .gone
  | .stop => return .one e
  | .splice nodes => return .many ((← nodes.mapM n.expr).flatMap Outcome.toList)

def stmtSlot (r : Rewriter σ) (n : Newcomers σ) (s : Stmt) (parts : StateM σ Stmt) :
    StateM σ Stmt :=
  return (← r.processStmt n s parts).toStmt s.loc

/-- Rewrites an expression where one is needed. -/
def exprSlot (r : Rewriter σ) (n : Newcomers σ) (e : Expr) (parts : StateM σ Expr) :
    StateM σ Expr :=
  return (← r.processExpr n e parts).toExpr e.loc

/-! ## The parts of a node -/

mutual

def exprParts (r : Rewriter σ) (n : Newcomers σ) : Expr → StateM σ Expr
  | .template loc qs es => return .template loc qs (← exprs r n es)
  | .array loc es => return .array loc (← elements r n es)
  | .object loc ps => return .object loc (← properties r n ps)
  | .function f => return .function (← func r n f)
  | .arrow a => return .arrow (← arrow r n a)
  | .class c => return .class (← classDef r n c)
  | .unary loc op e => return .unary loc op (← r.exprSlot n e (exprParts r n e))
  | .update loc op before (.member mloc optional o p) =>
    return .update loc op before
      (.member mloc optional (← r.exprSlot n o (exprParts r n o)) (← propName r n p))
  | .binary loc op a b =>
    return .binary loc op (← r.exprSlot n a (exprParts r n a)) (← r.exprSlot n b (exprParts r n b))
  | .logical loc op a b =>
    return .logical loc op (← r.exprSlot n a (exprParts r n a))
      (← r.exprSlot n b (exprParts r n b))
  | .conditional loc t c a =>
    return .conditional loc (← r.exprSlot n t (exprParts r n t))
      (← r.exprSlot n c (exprParts r n c)) (← r.exprSlot n a (exprParts r n a))
  | .assign loc op p v =>
    return .assign loc op (← pat r n p) (← r.exprSlot n v (exprParts r n v))
  | .sequence loc es => return .sequence loc (← exprs r n es)
  | .member loc optional o p =>
    return .member loc optional (← r.exprSlot n o (exprParts r n o)) (← propName r n p)
  | .call loc optional pure callee es =>
    return .call loc optional pure (← r.exprSlot n callee (exprParts r n callee))
      (← exprs r n es)
  | .new loc pure callee es =>
    return .new loc pure (← r.exprSlot n callee (exprParts r n callee)) (← exprs r n es)
  | .chain loc e => return .chain loc (← r.exprSlot n e (exprParts r n e))
  | .tagged loc tag quasiLoc qs es =>
    return .tagged loc (← r.exprSlot n tag (exprParts r n tag)) quasiLoc qs (← exprs r n es)
  | .spread loc e => return .spread loc (← r.exprSlot n e (exprParts r n e))
  | .yield loc delegate e => return .yield loc delegate (← optExpr r n e)
  | .await loc e => return .await loc (← r.exprSlot n e (exprParts r n e))
  | .importCall loc e options =>
    return .importCall loc (← r.exprSlot n e (exprParts r n e)) (← optExpr r n options)
  | e => return e

def optExpr (r : Rewriter σ) (n : Newcomers σ) : Option Expr → StateM σ (Option Expr)
  | some e => return some (← r.exprSlot n e (exprParts r n e))
  | none => return none

def exprs (r : Rewriter σ) (n : Newcomers σ) : List Expr → StateM σ (List Expr)
  | [] => return []
  | e :: rest => return (← r.exprSlot n e (exprParts r n e)) :: (← exprs r n rest)

def elements (r : Rewriter σ) (n : Newcomers σ) :
    List (Option Expr) → StateM σ (List (Option Expr))
  | [] => return []
  | some e :: rest => return some (← r.exprSlot n e (exprParts r n e)) :: (← elements r n rest)
  | none :: rest => return none :: (← elements r n rest)

def propName (r : Rewriter σ) (n : Newcomers σ) : PropName → StateM σ PropName
  | .computed e => return .computed (← r.exprSlot n e (exprParts r n e))
  | k => return k

def properties (r : Rewriter σ) (n : Newcomers σ) : List Property → StateM σ (List Property)
  | [] => return []
  | .value loc key e :: rest =>
    return .value loc (← propName r n key) (← r.exprSlot n e (exprParts r n e))
      :: (← properties r n rest)
  | .getter loc key f :: rest =>
    return .getter loc (← propName r n key) (← func r n f) :: (← properties r n rest)
  | .setter loc key f :: rest =>
    return .setter loc (← propName r n key) (← func r n f) :: (← properties r n rest)
  | .method loc key f :: rest =>
    return .method loc (← propName r n key) (← func r n f) :: (← properties r n rest)
  | .spread loc e :: rest =>
    return .spread loc (← r.exprSlot n e (exprParts r n e)) :: (← properties r n rest)

def func (r : Rewriter σ) (n : Newcomers σ) : Func → StateM σ Func
  | ⟨loc, id, isAsync, isGenerator, ps, ⟨bodyLoc, body⟩⟩ => do
    if ← r.enterFunction ⟨loc, id, isAsync, isGenerator, ps, ⟨bodyLoc, body⟩⟩ then
      let ps ← pats r n ps
      let body ← r.afterStmts .function (← stmts r n body)
      let f : Func := ⟨loc, id, isAsync, isGenerator, ps, ⟨bodyLoc, body⟩⟩
      r.leaveFunction f
      return f
    else return ⟨loc, id, isAsync, isGenerator, ps, ⟨bodyLoc, body⟩⟩

def arrow (r : Rewriter σ) (n : Newcomers σ) : Arrow → StateM σ Arrow
  | ⟨loc, isAsync, ps, .block ⟨bodyLoc, body⟩⟩ => do
    if ← r.enterArrow ⟨loc, isAsync, ps, .block ⟨bodyLoc, body⟩⟩ then
      let ps ← pats r n ps
      let body ← r.afterStmts .function (← stmts r n body)
      let a : Arrow := ⟨loc, isAsync, ps, .block ⟨bodyLoc, body⟩⟩
      r.leaveArrow a
      return a
    else return ⟨loc, isAsync, ps, .block ⟨bodyLoc, body⟩⟩
  | ⟨loc, isAsync, ps, .expr e⟩ => do
    if ← r.enterArrow ⟨loc, isAsync, ps, .expr e⟩ then
      let ps ← pats r n ps
      let a : Arrow := ⟨loc, isAsync, ps, .expr (← r.exprSlot n e (exprParts r n e))⟩
      r.leaveArrow a
      return a
    else return ⟨loc, isAsync, ps, .expr e⟩

def block (r : Rewriter σ) (n : Newcomers σ) : Block → StateM σ Block
  | ⟨loc, body⟩ => return ⟨loc, ← r.afterStmts .block (← stmts r n body)⟩

def classDef (r : Rewriter σ) (n : Newcomers σ) : ClassDef → StateM σ ClassDef
  | ⟨loc, id, superClass, body⟩ =>
    return ⟨loc, id, ← optExpr r n superClass, ← members r n body⟩

def members (r : Rewriter σ) (n : Newcomers σ) : List Member → StateM σ (List Member)
  | [] => return []
  | .method loc isStatic kind key f :: rest =>
    return .method loc isStatic kind (← propName r n key) (← func r n f) :: (← members r n rest)
  | .property loc isStatic key e :: rest =>
    return .property loc isStatic (← propName r n key) (← optExpr r n e) :: (← members r n rest)
  | .staticBlock loc body :: rest =>
    return .staticBlock loc (← r.afterStmts .staticBlock (← stmts r n body))
      :: (← members r n rest)

/-- Rewrites the values in a pattern. -/
def pat (r : Rewriter σ) (n : Newcomers σ) : Pat → StateM σ Pat
  | .array loc ps => return .array loc (← patElements r n ps)
  | .object loc ps => return .object loc (← patProperties r n ps)
  | .rest loc p => return .rest loc (← pat r n p)
  | .assign loc p e => return .assign loc (← pat r n p) (← r.exprSlot n e (exprParts r n e))
  | .expr (.member loc optional o p) =>
    return .expr (.member loc optional (← r.exprSlot n o (exprParts r n o)) (← propName r n p))
  | p => return p

def optPat (r : Rewriter σ) (n : Newcomers σ) : Option Pat → StateM σ (Option Pat)
  | some p => return some (← pat r n p)
  | none => return none

def pats (r : Rewriter σ) (n : Newcomers σ) : List Pat → StateM σ (List Pat)
  | [] => return []
  | p :: rest => return (← pat r n p) :: (← pats r n rest)

def patElements (r : Rewriter σ) (n : Newcomers σ) :
    List (Option Pat) → StateM σ (List (Option Pat))
  | [] => return []
  | some p :: rest => return some (← pat r n p) :: (← patElements r n rest)
  | none :: rest => return none :: (← patElements r n rest)

def patProperties (r : Rewriter σ) (n : Newcomers σ) :
    List PatProperty → StateM σ (List PatProperty)
  | [] => return []
  | .keyValue loc key p :: rest =>
    return .keyValue loc (← propName r n key) (← pat r n p) :: (← patProperties r n rest)
  | .rest loc p :: rest => return .rest loc (← pat r n p) :: (← patProperties r n rest)

def varDecl (r : Rewriter σ) (n : Newcomers σ) : VarDecl → StateM σ VarDecl
  | ⟨loc, kind, ds⟩ => return ⟨loc, kind, ← declarators r n ds⟩

def declarators (r : Rewriter σ) (n : Newcomers σ) :
    List Declarator → StateM σ (List Declarator)
  | [] => return []
  | ⟨loc, p, e⟩ :: rest =>
    return ⟨loc, ← pat r n p, ← optExpr r n e⟩ :: (← declarators r n rest)

def forInit (r : Rewriter σ) (n : Newcomers σ) : ForInit → StateM σ ForInit
  | .none => return .none
  | .decl d => return .decl (← varDecl r n d)
  | .expr e => return .expr (← r.exprSlot n e (exprParts r n e))

def forTarget (r : Rewriter σ) (n : Newcomers σ) : ForTarget → StateM σ ForTarget
  | .decl d => return .decl (← varDecl r n d)
  | .pat p => return .pat (← pat r n p)

def switchCases (r : Rewriter σ) (n : Newcomers σ) :
    List SwitchCase → StateM σ (List SwitchCase)
  | [] => return []
  | ⟨loc, test, body⟩ :: rest =>
    return ⟨loc, ← optExpr r n test, ← r.afterStmts .case (← stmts r n body)⟩
      :: (← switchCases r n rest)

def handler (r : Rewriter σ) (n : Newcomers σ) : Option Handler → StateM σ (Option Handler)
  | none => return none
  | some ⟨loc, param, b⟩ => return some ⟨loc, ← optPat r n param, ← block r n b⟩

def optBlock (r : Rewriter σ) (n : Newcomers σ) : Option Block → StateM σ (Option Block)
  | none => return none
  | some b => return some (← block r n b)

def stmtParts (r : Rewriter σ) (n : Newcomers σ) : Stmt → StateM σ Stmt
  | .block b => return .block (← block r n b)
  | .varDecl d => return .varDecl (← varDecl r n d)
  | .function f => return .function (← func r n f)
  | .class c => return .class (← classDef r n c)
  | .expr loc e => return .expr loc (← r.exprSlot n e (exprParts r n e))
  | .if loc test c a =>
    return .if loc (← r.exprSlot n test (exprParts r n test))
      (← r.stmtSlot n c (stmtParts r n c)) (← optStmt r n a)
  | .for loc init test update body =>
    return .for loc (← forInit r n init) (← optExpr r n test) (← optExpr r n update)
      (← r.stmtSlot n body (stmtParts r n body))
  | .forIn loc target e body =>
    return .forIn loc (← forTarget r n target) (← r.exprSlot n e (exprParts r n e))
      (← r.stmtSlot n body (stmtParts r n body))
  | .forOf loc isAwait target e body =>
    return .forOf loc isAwait (← forTarget r n target) (← r.exprSlot n e (exprParts r n e))
      (← r.stmtSlot n body (stmtParts r n body))
  | .while loc test body =>
    return .while loc (← r.exprSlot n test (exprParts r n test))
      (← r.stmtSlot n body (stmtParts r n body))
  | .doWhile loc body test =>
    return .doWhile loc (← r.stmtSlot n body (stmtParts r n body))
      (← r.exprSlot n test (exprParts r n test))
  | .switch loc e cases =>
    return .switch loc (← r.exprSlot n e (exprParts r n e)) (← switchCases r n cases)
  | .try loc b h f => return .try loc (← block r n b) (← handler r n h) (← optBlock r n f)
  | .return loc e => return .return loc (← optExpr r n e)
  | .throw loc e => return .throw loc (← r.exprSlot n e (exprParts r n e))
  | .labeled loc label body =>
    return .labeled loc label (← r.stmtSlot n body (stmtParts r n body))
  | .with loc e body =>
    return .with loc (← r.exprSlot n e (exprParts r n e))
      (← r.stmtSlot n body (stmtParts r n body))
  | .exportDecl loc s => return .exportDecl loc (← r.stmtSlot n s (stmtParts r n s))
  | .exportFunction loc f => return .exportFunction loc (← func r n f)
  | .exportClass loc c => return .exportClass loc (← classDef r n c)
  | .exportExpr loc e => return .exportExpr loc (← r.exprSlot n e (exprParts r n e))
  | s => return s

def optStmt (r : Rewriter σ) (n : Newcomers σ) : Option Stmt → StateM σ (Option Stmt)
  | some s => return some (← r.stmtSlot n s (stmtParts r n s))
  | none => return none

def stmts (r : Rewriter σ) (n : Newcomers σ) : List Stmt → StateM σ (List Stmt)
  | [] => return []
  | s :: rest =>
    return (← r.processStmt n s (stmtParts r n s)).toList ++ (← stmts r n rest)

end

/-! ## Whole trees -/

/-- How newcomers are rewritten, among which there can be newcomers again down to
the given depth. -/
def newcomers (r : Rewriter σ) : Nat → Newcomers σ
  | 0 => ⟨fun s => return .one s, fun e => return .one e⟩
  | depth + 1 =>
    { stmt := fun s => r.finishStmt (stmtParts r (newcomers r depth) s)
      expr := fun e => r.finishExpr (exprParts r (newcomers r depth) e) }

/-- Rewrites an expression.  Newcomers are rewritten down to the given depth. -/
def expr (r : Rewriter σ) (depth : Nat) (e : Expr) : StateM σ Expr :=
  r.exprSlot (r.newcomers depth) e (exprParts r (r.newcomers depth) e)

def program (r : Rewriter σ) (depth : Nat) (p : Program) : StateM σ Program :=
  return { p with body := ← r.afterStmts .program (← stmts r (r.newcomers depth) p.body) }

end Rewriter

end Laconic
