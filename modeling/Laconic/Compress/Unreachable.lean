import Laconic.Compress.Basic

/-!
# Code that never runs

Statements after a jump, branches that are never taken and loops that are never
entered are removed.  What they declare for the code around them stays: a `var`
keeps its names without their values, and a function stays as a whole where the
language would have hoisted it.
-/

namespace Laconic

def Stmt.declaring (kind : VarKind) (names : List Ident) (loc : Span) : Stmt :=
  .varDecl ⟨loc, kind, names.map fun id => ⟨id.loc, .ident id, none⟩⟩

/-- A declaration without its values; nothing if it declares no name. -/
def VarDecl.bare (d : VarDecl) (kind : VarKind) : List Stmt :=
  if d.boundNames.isEmpty then [] else [.declaring kind d.boundNames d.loc]

def VarDecl.bareVar (d : VarDecl) : List Stmt := if d.kind == .var then d.bare .var else []

/-- What the head of a loop declares outside it. -/
def ForInit.hoisted : ForInit → List Stmt
  | .decl d => d.bareVar
  | _ => []

/-- What the target of a loop declares outside it. -/
def ForTarget.hoisted : ForTarget → List Stmt
  | .decl d => d.bareVar
  | .pat _ => []

mutual

/-- What stays of a statement that is removed.  `direct` says that it stands in
the list of statements that its own declarations belong to. -/
def Stmt.hoisted (strict direct : Bool) : Stmt → List Stmt
  | .varDecl d => if d.kind == .var then d.bare .var else if direct then d.bare .let else []
  | .function f => if direct || !strict then [.function f] else []
  | .class c =>
    match direct, c.id with
    | true, some id => [.declaring .let [id] c.loc]
    | _, _ => []
  | .block ⟨_, body⟩ => Stmt.hoistedList strict body
  | .if _ _ c a => Stmt.hoisted strict false c ++ Stmt.hoistedOpt strict a
  | .for _ init _ _ body => init.hoisted ++ Stmt.hoisted strict false body
  | .forIn _ target _ body | .forOf _ _ target _ body =>
    target.hoisted ++ Stmt.hoisted strict false body
  | .while _ _ body | .doWhile _ body _ | .labeled _ _ body | .with _ _ body =>
    Stmt.hoisted strict false body
  | .switch _ _ cases => Stmt.hoistedCases strict cases
  | .try _ ⟨_, b⟩ h f =>
    Stmt.hoistedList strict b ++ Stmt.hoistedHandler strict h ++ Stmt.hoistedBlock strict f
  | _ => []

def Stmt.hoistedOpt (strict : Bool) : Option Stmt → List Stmt
  | none => []
  | some s => Stmt.hoisted strict false s

def Stmt.hoistedList (strict : Bool) : List Stmt → List Stmt
  | [] => []
  | s :: rest => Stmt.hoisted strict false s ++ Stmt.hoistedList strict rest

def Stmt.hoistedCases (strict : Bool) : List SwitchCase → List Stmt
  | [] => []
  | ⟨_, _, body⟩ :: rest => Stmt.hoistedList strict body ++ Stmt.hoistedCases strict rest

def Stmt.hoistedHandler (strict : Bool) : Option Handler → List Stmt
  | none => []
  | some ⟨_, _, ⟨_, body⟩⟩ => Stmt.hoistedList strict body

def Stmt.hoistedBlock (strict : Bool) : Option Block → List Stmt
  | none => []
  | some ⟨_, body⟩ => Stmt.hoistedList strict body

end

/-- Whether a statement only declares variables without values. -/
def Stmt.isBareDeclaration : Stmt → Bool
  | .varDecl d => d.declarators.all (·.init.isNone)
  | _ => false

mutual

/-- Whether a statement has a `break` without a label that leaves the `switch`
around it. -/
def Stmt.leavesSwitch : Stmt → Bool
  | .break _ label => label.isNone
  | .block ⟨_, body⟩ => Stmt.leavesSwitchList body
  | .if _ _ c a => c.leavesSwitch || Stmt.leavesSwitchOpt a
  | .labeled _ _ body | .with _ _ body => body.leavesSwitch
  | .try _ ⟨_, b⟩ h f =>
    Stmt.leavesSwitchList b || Stmt.leavesSwitchHandler h || Stmt.leavesSwitchBlock f
  | _ => false

def Stmt.leavesSwitchOpt : Option Stmt → Bool
  | none => false
  | some s => s.leavesSwitch

def Stmt.leavesSwitchList : List Stmt → Bool
  | [] => false
  | s :: rest => s.leavesSwitch || Stmt.leavesSwitchList rest

def Stmt.leavesSwitchHandler : Option Handler → Bool
  | none => false
  | some ⟨_, _, ⟨_, body⟩⟩ => Stmt.leavesSwitchList body

def Stmt.leavesSwitchBlock : Option Block → Bool
  | none => false
  | some ⟨_, body⟩ => Stmt.leavesSwitchList body

end

/-! ## Statements that may be taken apart -/

/-- The parts of an `if`. -/
structure IfStmt where
  loc : Span
  test : Expr
  consequent : Stmt
  alternate : Option Stmt

def IfStmt.toStmt (s : IfStmt) : Stmt := .if s.loc s.test s.consequent s.alternate

/-- The parts of a `for`, or of a `while` with an empty head. -/
structure ForStmt where
  loc : Span
  init : ForInit
  test : Option Expr
  update : Option Expr
  body : Stmt

def ForStmt.toStmt (s : ForStmt) : Stmt := .for s.loc s.init s.test s.update s.body

/-- The parts of a `switch`. -/
structure SwitchStmt where
  loc : Span
  discriminant : Expr
  cases : List SwitchCase

def SwitchStmt.toStmt (s : SwitchStmt) : Stmt := .switch s.loc s.discriminant s.cases

namespace Compressor

/-- Whether the code at the present place is strict. -/
def isStrict : Compressing Bool := return (← get).strict.headD false

/-- The statements that stay of an expression whose value is not used. -/
def effectsOf (c : Compressor) (e : Expr) : List Stmt :=
  ((c.purity.dropUnused e).map Stmt.ofExpr).toList

/-- What stays of a statement after a jump. -/
def unreached (c : Compressor) (s : Stmt) : Compressing (List Stmt) := do
  match s with
  | .function f => return [.function f]
  | .empty _ => return []
  | s =>
    if !s.isBareDeclaration then c.warn .unreachable s.loc
    return s.hoisted (← isStrict) true

/-- Removes what comes after the first jump of a list of statements. -/
def dropUnreachable (c : Compressor) : List Stmt → Compressing (List Stmt)
  | [] => return []
  | s :: rest =>
    if s.isJump then return s :: (← rest.mapM c.unreached).flatten
    else return s :: (← c.dropUnreachable rest)

/-- What stays of a branch that is never taken. -/
def untaken (c : Compressor) : Option Stmt → Compressing (List Stmt)
  | none => return []
  | some s =>
    if s.isEmpty then return []
    else do
      c.warn .unreachable s.loc
      return s.hoisted (← isStrict) false

/-- An `if` whose condition is known: the branch that is taken and what stays of
the other one, and what is left of the `if` itself. -/
def pruneIf? (c : Compressor) (s : IfStmt) : Compressing (Option (List Stmt) × IfStmt) := do
  match c.truth? s.test with
  | none => return (none, s)
  | some taken =>
    let (kept, dropped) :=
      if taken then (some s.consequent, s.alternate) else (s.alternate, some s.consequent)
    let hoisted ← c.untaken dropped
    return (some (c.effectsOf s.test ++ hoisted ++ kept.toList),
      ⟨s.loc, .undefined s.test.loc, .empty s.loc, none⟩)

/-- What stays of the head of a loop that is never entered; `none` if its names
are declared for the loop only. -/
def headEffects? (c : Compressor) : ForInit → Option (List Stmt)
  | .none => some []
  | .expr e => some (c.effectsOf e)
  | .decl d => if d.kind == .var then some [.varDecl d] else none

/-- A loop whose condition is known not to hold: its head and what stays of its
body, and what is left of the loop itself. -/
def pruneLoop? (c : Compressor) (s : ForStmt) :
    Compressing (Option (List Stmt) × ForStmt) := do
  match s.test, s.test.bind c.truth? with
  | some test, some false =>
    let opened := { s with init := .none }
    match c.headEffects? s.init with
    -- the head is put back
    | none => return (none, { opened with init := s.init })
    | some head =>
      if !s.body.isEmpty then c.warn .unreachable s.body.loc
      return (some (head ++ c.effectsOf test ++ s.body.hoisted (← isStrict) false),
        { opened with test := none })
  | _, _ => return (none, s)

/-! ## Clauses of a `switch` -/

/-- The clause of a `switch` that a value leads to: the first one with an equal
value, else the default.  `none` if a clause has no known value. -/
def selectedCase? (c : Compressor) (value : Value) (cases : List SwitchCase) :
    Option (Option Nat) := do
  let values ← cases.mapM fun x =>
    match x.test with
    | none => some none
    | some test => (test.evaluate c.knowledge).toOption.map some
  let matched := values.findIdx? fun v => v.any value.strictEquals
  let defaults := (List.range cases.length).filter fun i => values[i]?.any (·.isNone)
  return matched.orElse fun _ => defaults.getLast?

/-- What is taken of a `switch` so far. -/
structure Taking where
  /-- The statements that run. -/
  taken : List Stmt := []
  /-- What stays of those that do not. -/
  hoisted : List Stmt := []
  taking : Bool := false
  done : Bool := false

/-- Takes a statement of a clause; `none` if it leaves the `switch` from inside. -/
def Taking.step (strict : Bool) (t : Taking) (s : Stmt) : Option Taking :=
  if !t.taking then some { t with hoisted := t.hoisted ++ s.hoisted strict false }
  else
    match s with
    | .break _ none => some { t with taking := false, done := true }
    | s => if s.leavesSwitch then none else some { t with taken := t.taken ++ [s] }

/-- Takes the statements of the clauses from number `i` on. -/
def Taking.cases (strict : Bool) (start : Option Nat) :
    Nat → Taking → List SwitchCase → Option Taking
  | _, t, [] => some t
  | i, t, x :: rest => do
    let t := if start == some i && !t.done then { t with taking := true } else t
    let t ← x.body.foldlM (Taking.step strict) t
    Taking.cases strict start (i + 1) t rest

/-- The statements of a `switch` whose value is known, from the clause it leads to
up to the first `break`, and what stays of the others. -/
def takenClauses? (c : Compressor) (strict : Bool) (s : SwitchStmt) : Option (List Stmt) := do
  let value ← (s.discriminant.evaluate c.knowledge).toOption
  let start ← c.selectedCase? value s.cases
  let t ← Taking.cases strict start 0 {} s.cases
  let taken := if t.taken.any (·.isLexical) then [.block ⟨s.loc, t.taken⟩] else t.taken
  return t.hoisted ++ taken

/-- A `switch` whose value is known: what takes its place, and the `switch` itself,
of which the clauses are copied. -/
def pruneSwitch? (c : Compressor) (strict : Bool) (s : SwitchStmt) :
    Option (List Stmt) × SwitchStmt :=
  (c.takenClauses? strict s, s)

end Compressor

end Laconic
