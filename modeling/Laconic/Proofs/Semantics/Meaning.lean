import Laconic.Constant.Purity
import Laconic.Proofs.Semantics.Behaviour

/-!
# Meanings of expressions and statements

A meaning gives each expression an evaluation, in any way that respects how the operators
of the language evaluate their operands: which ones are left out, in which order the others
run, and that expressions without effects have none.  What assignments, calls and names do
is left open, and so is what statements such as `try` do.  A meaning of the expressions is a
meaning of the statements made of them.
-/

namespace Laconic

/-! ## Parts of strict operations -/

namespace Purity

def keyParts : PropName → List Expr
  | .computed e => [e]
  | _ => []

/-- What is evaluated for the callee of a call that has no effect of its own; nothing if it
has none. -/
def calleeParts? (p : Purity) (callee : Expr) : Option (List Expr) :=
  if !p.effects true callee then some []
  else
    match callee with
    | .member _ optional o k => if optional then none else some (o :: keyParts k)
    | e => some [e]

/-- The parts of an operation that has no effect but theirs, in the order in which they are
evaluated. -/
def parts? (p : Purity) : Expr → Option (List Expr)
  | .unary _ op e =>
    match op, e with
    | .delete, _ => none
    | .typeof, .ident _ => some []
    | _, e => some [e]
  | .binary _ op l r => if op == .in || op == .instanceof then none else some [l, r]
  | .template _ _ es => some es
  | .array _ es => if es.any (·.any (·.isSpread)) then none else some es.reduceOption
  | .member _ optional o k => if p.pureGetters && !optional then some (o :: keyParts k) else none
  | .call _ optional pure callee es =>
    if p.isPureCall callee pure && !es.any (·.isSpread) && !optional then
      (p.calleeParts? callee).map (· ++ es)
    else none
  | _ => none

end Purity

/-! ## Evaluations of several expressions -/

namespace Evaluating

variable {σ V : Type}

/-- The effects of an evaluation without its result. -/
def dropped (m : Evaluating σ V V) : Evaluating σ V Unit := do
  let _ ← m
  return ()

/-- The effects of expressions, one after the other. -/
def all (eval : Expr → Evaluating σ V V) : List Expr → Evaluating σ V Unit
  | [] => return ()
  | e :: es => do
    let _ ← eval e
    all eval es

/-- The value of the last expression, after the effects of the others. -/
def last (eval : Expr → Evaluating σ V V) (undefined : V) : List Expr → Evaluating σ V V
  | [] => return undefined
  | [e] => eval e
  | e :: es => do
    let _ ← eval e
    last eval undefined es

end Evaluating

/-! ## Meanings -/

/-- An interpretation of expressions as evaluations that respects the operators and what is
known about effects. -/
structure Meaning (p : Purity) (σ V : Type) where
  eval : Expr → Evaluating σ V V
  truthy : V → Bool
  nullish : V → Bool
  /-- The contrary truth value. -/
  not : V → V
  undefined : V
  /-- Whether a clause of a `switch` with a value is chosen. -/
  same : V → V → Bool
  /-- Gives a value to what a declaration declares. -/
  bind : VarKind → Pat → V → Evaluating σ V Unit
  /-- What the statements do that are not described further. -/
  other : Stmt → Behaviour σ V
  truthy_not : ∀ v, truthy (not v) = !truthy v
  eval_not : ∀ loc e, eval (.unary loc .not e) = do return not (← eval e)
  eval_negated : ∀ loc op negated l r, op.negated? = some negated →
    eval (.binary loc negated l r) = do return not (← eval (.binary loc op l r))
  eval_and : ∀ loc l r, eval (.logical loc .and l r) = do
    let v ← eval l
    if truthy v then eval r else return v
  eval_or : ∀ loc l r, eval (.logical loc .or l r) = do
    let v ← eval l
    if truthy v then return v else eval r
  eval_nullish : ∀ loc l r, eval (.logical loc .nullish l r) = do
    let v ← eval l
    if nullish v then eval r else return v
  eval_conditional : ∀ loc t c a, eval (.conditional loc t c a) = do
    if truthy (← eval t) then eval c else eval a
  eval_sequence : ∀ loc es, es ≠ [] → eval (.sequence loc es) = .last eval undefined es
  /-- An expression without effects leaves the state alone and does not throw. -/
  eval_pure : ∀ e, p.hasEffects e = false → ∀ s, ∃ v, (eval e).from s = (.ok v, s)
  /-- An operation without effects of its own has those of its parts. -/
  eval_parts : ∀ e es, p.parts? e = some es → (eval e).dropped = .all eval es

namespace Meaning

variable {p : Purity} {σ V : Type} (M : Meaning p σ V)

open Behaviour

/-- Whether a condition holds. -/
def test (e : Expr) : Evaluating σ V Bool := do return M.truthy (← M.eval e)

/-- The condition of a loop, which may be left out. -/
def optTest : Option Expr → Evaluating σ V Bool
  | none => return true
  | some e => M.test e

/-- The effects of an expression that may be absent. -/
def optAct : Option Expr → Evaluating σ V Unit
  | none => return ()
  | some e => (M.eval e).dropped

/-! ## Declarations -/

/-- A variable gets its value; one without a value is left alone. -/
def declarator (kind : VarKind) : Declarator → Evaluating σ V Unit
  | ⟨_, _, none⟩ => return ()
  | ⟨_, target, some e⟩ => do M.bind kind target (← M.eval e)

/-- The variables of a declaration in order. -/
def declarators (kind : VarKind) : List Declarator → Evaluating σ V Unit
  | [] => return ()
  | d :: ds => do
    M.declarator kind d
    declarators kind ds

def forInit : ForInit → Evaluating σ V Unit
  | .none => return ()
  | .decl d => M.declarators d.kind d.declarators
  | .expr e => (M.eval e).dropped

/-! ## Clauses -/

/-- The value of a clause and what its statements do. -/
abbrev Clause (σ V : Type) : Type := Option Expr × Behaviour σ V

/-- The statements of clauses one after the other. -/
def fallThrough : List (Clause σ V) → Behaviour σ V
  | [] => skip
  | x :: xs => seq x.2 (fallThrough xs)

/-- The clauses from the first one on that has an equal value. -/
def chosen (v : V) : List (Clause σ V) → Evaluating σ V (Option (Behaviour σ V))
  | [] => return none
  | (none, _) :: xs => chosen v xs
  | (some e, a) :: xs => do
    if M.same v (← M.eval e) then return some (seq a (fallThrough xs)) else chosen v xs

/-- The clauses from the default on. -/
def fromDefault : List (Clause σ V) → Behaviour σ V
  | [] => skip
  | (none, a) :: xs => seq a (fallThrough xs)
  | (some _, _) :: xs => fromDefault xs

/-! ## Statements -/

mutual

/-- What a statement with some labels does. -/
def stmt (labels : List String) : Stmt → Behaviour σ V
  | .block ⟨_, body⟩ => list body
  | .varDecl d => evaluated (M.declarators d.kind d.declarators) fun _ => skip
  | .function _ | .empty _ => skip
  | .expr _ e => evaluated (M.eval e) fun _ => skip
  | .if _ t c a => evaluated (M.test t) fun b => if b then stmt [] c else optStmt a
  | .for _ init test update body =>
    evaluated (M.forInit init) fun _ =>
      Rounds labels (M.optTest test) (M.optAct update) (stmt [] body)
  | .while _ t body => Rounds labels (M.test t) (pure ()) (stmt [] body)
  | .doWhile _ body t =>
    -- the condition is not looked at before the first round
    fun s c s' => ∃ c₁ s₁, stmt [] body s c₁ s₁ ∧
      if c₁.goesOn labels then Rounds labels (M.test t) (pure ()) (stmt [] body) s₁ c s'
      else c = c₁.afterLoop ∧ s' = s₁
  | .switch _ e cases =>
    evaluated (M.eval e) fun v => evaluated (M.chosen v (clauses cases)) fun a =>
      switched (a.getD (fromDefault (clauses cases)))
  | .return _ none => ends (.return M.undefined)
  | .return _ (some e) => evaluated (M.eval e) fun v => ends (.return v)
  | .throw _ e => evaluated (M.eval e) fun v => ends (.throw v)
  | .break _ label => ends (.break (label.map (·.name)))
  | .continue _ label => ends (.continue (label.map (·.name)))
  | .labeled _ label body => labeled label.name (stmt (label.name :: labels) body)
  | s => M.other s

/-- What statements do one after the other. -/
def list : List Stmt → Behaviour σ V
  | [] => skip
  | s :: rest => seq (stmt [] s) (list rest)

/-- What a statement does that may be absent. -/
def optStmt : Option Stmt → Behaviour σ V
  | none => skip
  | some s => stmt [] s

def clauses : List SwitchCase → List (Clause σ V)
  | [] => []
  | ⟨_, test, body⟩ :: rest => (test, list body) :: clauses rest

end

/-- What the body of a function does: at its end it returns no value. -/
def body (ss : List Stmt) : Behaviour σ V := seq (M.list ss) (ends (.return M.undefined))

end Meaning

end Laconic
