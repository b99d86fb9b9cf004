import Laconic.Compress.Unreachable
import Laconic.Tree.Rewriter

/-!
# Shorter statements

What is done with a statement once its parts are done: an `if` becomes an
expression where it can, a `while` becomes a `for`, and what has no effect is
removed.
-/

namespace Laconic

/-- Statements in the place of one. -/
def spliceStmts (list : List Stmt) : Action Stmt :=
  if list.isEmpty then .remove else .splice list

/-- Whether a statement is a `break` without a label, alone or in braces. -/
def Stmt.isPlainBreak : Stmt → Bool
  | .break _ label => label.isNone
  | .block ⟨_, [.break _ label]⟩ => label.isNone
  | _ => false

/-- The condition of a statement that only leaves the loop around it. -/
def Stmt.breakTest? : Stmt → Option Expr
  | .if _ test c none => if c.isPlainBreak then some test else none
  | _ => none

/-- Takes a condition to leave the loop from the beginning of its body. -/
def Stmt.leadingBreak? (body : Stmt) : Option (Expr × Stmt) :=
  match body.breakTest? with
  | some test => some (test, .empty body.loc)
  | none =>
    match body with
    | .block ⟨loc, first :: rest⟩ =>
      first.breakTest?.map fun test =>
        (test, if rest.isEmpty then .empty loc else .blockOrSingle loc rest)
    | _ => none

namespace Compressor

/-! ## Choices -/

def testEffects (c : Compressor) (test : Expr) : Action Stmt :=
  match c.purity.dropUnused test with
  | none => .remove
  | some e => .replace (.ofExpr e)

/-- An expression that is evaluated under a condition. -/
def guarded (c : Compressor) (test body : Expr) : Stmt :=
  .ofExpr (if test.isNot then .mkLogical .or (c.negate test) body
    else .mkLogical .and test body)

/-- An `if` whose condition may be known. -/
def pruned? (c : Compressor) (s : IfStmt) : Compressing (Option (List Stmt) × IfStmt) :=
  if c.options.deadCode then c.pruneIf? s else return (none, s)

/-- An `if` without `else`.  The condition of an `if` that is all there is inside
is joined to that of the outer one. -/
def optimizeThen (c : Compressor) (loc : Span) (test : Expr) :
    Stmt → Compressing (Action Stmt)
  | .if _ inner body none => do
    let test := c.condition (.mkLogical .and test inner)
    match ← c.pruned? ⟨loc, test, body, none⟩ with
    | (some list, _) => return spliceStmts list
    -- all of the `if` is left, with this test and this body
    | (none, _) => if body.isVoid then return c.testEffects test else c.optimizeThen loc test body
  | .expr _ body => return .replace (c.guarded test body)
  | body => return .replace (.if loc test body none)

def optimizeElse (loc : Span) (test : Expr) (consequent alternate : Stmt) : Stmt :=
  match consequent, alternate with
  | .expr _ x, .expr _ y => .ofExpr (.mkConditional test x y)
  | .return _ (some x), .return _ (some y) => .return loc (some (.mkConditional test x y))
  | consequent, alternate => .if loc test consequent (some alternate)

def optimizeIf (c : Compressor) (loc : Span) (test : Expr) (consequent : Stmt)
    (alternate : Option Stmt) : Compressing (Action Stmt) := do
  match ← c.pruned? ⟨loc, c.condition test, consequent, alternate⟩ with
  | (some list, _) => return spliceStmts list
  | (none, ⟨loc, test, consequent, alternate⟩) =>
    let alternate := alternate.filter fun s => !s.isVoid
    if !c.options.conditionals then return .replace (.if loc test consequent alternate)
    else if consequent.isVoid then
      match alternate with
      | none => return c.testEffects test
      | some s => c.optimizeThen loc (c.negate test) s
    else
      match alternate with
      | none => c.optimizeThen loc test consequent
      | some s =>
        if test.isNot then return .replace (optimizeElse loc (c.negate test) s consequent)
        else return .replace (optimizeElse loc test consequent s)

/-! ## Loops and `switch` -/

def alwaysHolds (c : Compressor) (test : Expr) : Bool :=
  c.truth? test == some true && !c.purity.hasEffects test

def joinTests (test : Option Expr) (more : Expr) : Expr :=
  match test with
  | none => more
  | some test => .mkLogical .and test more

/-- The shortest form of a loop. -/
def canonicalLoop (c : Compressor) (s : ForStmt) : Stmt :=
  if !c.options.loops then s.toStmt
  else
    let test := s.test.filter fun t => !c.alwaysHolds t
    match s.body.leadingBreak? with
    | some (stop, body) =>
      .for s.loc s.init (some (joinTests test (c.negate stop))) s.update body
    | none => .for s.loc s.init test s.update s.body

/-- A loop whose condition may be known. -/
def prunedLoop? (c : Compressor) (s : ForStmt) : Compressing (Option (List Stmt) × ForStmt) :=
  if c.options.deadCode then c.pruneLoop? s else return (none, s)

def optimizeFor (c : Compressor) (loc : Span) (init : ForInit) (test update : Option Expr)
    (body : Stmt) : Compressing (Action Stmt) := do
  match ← c.prunedLoop? ⟨loc, init, test.map c.condition, update, body⟩ with
  | (some list, _) => return spliceStmts list
  | (none, s) => return .replace (c.canonicalLoop s)

def dropLastBreak (cases : List SwitchCase) : List SwitchCase :=
  match cases.getLast? with
  | some ⟨loc, test, body⟩ =>
    match body.getLast? with
    | some (.break _ none) => cases.dropLast ++ [⟨loc, test, body.dropLast⟩]
    | _ => cases
  | none => cases

def optimizeSwitch (c : Compressor) (loc : Span) (e : Expr) (cases : List SwitchCase) :
    Compressing (Action Stmt) := do
  if !c.options.switches then return .keep
  let strict ← isStrict
  let s : SwitchStmt := ⟨loc, e, cases⟩
  match if c.options.deadCode then c.pruneSwitch? strict s else (none, s) with
  | (some list, _) => return spliceStmts list
  | (none, ⟨loc, e, cases⟩) =>
    if cases.all fun x => x.body.isEmpty && x.test.all fun t => !c.purity.hasEffects t then
      return c.testEffects e
    else return .replace (.switch loc e (dropLastBreak cases))

/-! ## Statements -/

/-- An expression whose value is not used.  A function that is called at once is
negated, which is shorter than parentheses. -/
def optimizeExprStmt (c : Compressor) (loc : Span) (e : Expr) : Action Stmt :=
  match if c.options.sideEffects then c.purity.dropUnused e else some e with
  | none => .remove
  | some e =>
    match e with
    | .call _ _ _ (.function _) _ =>
      .replace (.expr loc (if c.options.negateIife then .mkNot e else e))
    | e => .replace (.expr loc e)

/-- The rules for a statement whose parts are done. -/
def optimizeStmt (c : Compressor) (s : Stmt) : Compressing (Action Stmt) :=
  match s with
  | .expr loc e => return c.optimizeExprStmt loc e
  | .debugger _ => return if c.options.dropDebugger then .remove else .keep
  | .block ⟨_, []⟩ => return .remove
  | .block ⟨_, [s]⟩ => return if s.isLexical then .keep else .replace s
  | .if loc test consequent alternate => c.optimizeIf loc test consequent alternate
  | .while loc test body =>
    if c.options.loops then c.optimizeFor loc .none (some test) none body else return .keep
  | .for loc init test update body => c.optimizeFor loc init test update body
  | .switch loc e cases => c.optimizeSwitch loc e cases
  | .return loc (some e) => return if e.isUndefined then .replace (.return loc none) else .keep
  | .try _ ⟨_, []⟩ _ finalizer =>
    match finalizer with
    | some b => return .replace (.block b)
    | none => return .remove
  | .labeled _ _ body => return if body.isVoid then .remove else .keep
  | _ => return .keep

end Compressor

end Laconic
