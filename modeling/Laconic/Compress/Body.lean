import Laconic.Compress.Collapse
import Laconic.Compress.Statement

/-!
# Shorter lists of statements

What is done with a list of statements once they are all done: blocks are opened,
statements after a jump are removed, `if` statements that return are merged,
values are moved to their only use, expressions are joined by commas and
declarations are joined.
-/

namespace Laconic

/-! ## Blocks -/

mutual

/-- A statement as the statements it consists of: a block that declares no names
of its own is opened, and empty statements are dropped. -/
def Stmt.opened : Stmt → List Stmt
  | .block ⟨loc, body⟩ =>
    if body.any (·.isLexical) then [.block ⟨loc, body⟩] else Stmt.openedList body
  | .empty _ => []
  | s => [s]

def Stmt.openedList : List Stmt → List Stmt
  | [] => []
  | s :: rest => s.opened ++ Stmt.openedList rest

end

/-! ## Returns -/

/-- Whether a statement ends in a jump, also in braces. -/
def Stmt.endsInJump : Stmt → Bool
  | .block ⟨_, body⟩ => body.getLast?.any (·.isJump)
  | s => s.isJump

mutual

/-- An `else` after a jump becomes a statement of its own, and so on in it. -/
def Stmt.withoutElse : Stmt → List Stmt
  | .if loc test c (some a) =>
    if c.endsInJump then .if loc test c none :: Stmt.elseBody a else [.if loc test c (some a)]
  | s => [s]

/-- The statements of what stood after `else`. -/
def Stmt.elseBody : Stmt → List Stmt
  | .block ⟨loc, body⟩ =>
    if body.any (·.isLexical) then [.block ⟨loc, body⟩] else Stmt.withoutElseList body
  | .if loc test c (some a) =>
    if c.endsInJump then .if loc test c none :: Stmt.elseBody a else [.if loc test c (some a)]
  | s => [s]

def Stmt.withoutElseList : List Stmt → List Stmt
  | [] => []
  | s :: rest => s.withoutElse ++ Stmt.withoutElseList rest

end

/-- The condition and the value of a statement that only returns a value under a
condition, with its place. -/
def Stmt.conditionalReturn? : Stmt → Option (Span × Expr × Expr)
  | .if loc test (.return _ (some e)) none => some (loc, test, e)
  | .if loc test (.block ⟨_, [.return _ (some e)]⟩) none => some (loc, test, e)
  | _ => none

/-- A return under a condition and the next return as one. -/
def mergeReturns : List Stmt → List Stmt
  | s :: .return rloc (some other) :: rest =>
    match s.conditionalReturn? with
    | some (loc, test, e) => .return loc (some (.mkConditional test e other)) :: mergeReturns rest
    | none => s :: mergeReturns (.return rloc (some other) :: rest)
  | s :: rest => s :: mergeReturns rest
  | [] => []

mutual

/-- Whether a statement only returns without a value, also in braces. -/
def Stmt.isBareReturn : Stmt → Bool
  | .return _ e => e.isNone
  | .block ⟨_, body⟩ => Stmt.isOneBareReturn body
  | _ => false

/-- Whether statements are one that only returns without a value. -/
def Stmt.isOneBareReturn : List Stmt → Bool
  | [] => false
  | s :: rest => s.isBareReturn && rest.isEmpty

end

/-- Whether a statement declares a function. -/
def Stmt.isFunction : Stmt → Bool
  | .function _ => true
  | _ => false

/-- The body of a function without a return at its end; functions may be declared
after it. -/
def dropFinalReturn (list : List Stmt) : List Stmt :=
  let functions := (list.reverse.takeWhile Stmt.isFunction).reverse
  match list.reverse.dropWhile Stmt.isFunction with
  | last :: before =>
    if last.isBareReturn then before.reverse ++ functions else list
  | [] => list

/-! ## Commas -/

/-- An expression before another one. -/
def Expr.after (e first : Expr) : Expr := .mkSequence [first, e]

/-- An expression moved into the statement after it, if that begins with one. -/
def Stmt.prepend? (limit : Nat) (first : Expr) : Stmt → Option Stmt
  | .expr loc e => if first.items.length < limit then some (.expr loc (e.after first)) else none
  | .return loc (some e) => some (.return loc (some (e.after first)))
  | .throw loc e => some (.throw loc (e.after first))
  | .if loc test c a => some (.if loc (test.after first) c a)
  | .switch loc e cases => some (.switch loc (e.after first) cases)
  | .for loc (.expr e) test update body => some (.for loc (.expr (e.after first)) test update body)
  | .for loc .none test update body => some (.for loc (.expr first) test update body)
  | _ => none

/-- Adds a statement to others, the last of which comes first. -/
def joinExpr (limit : Nat) (before : List Stmt) (s : Stmt) : List Stmt :=
  match before with
  | .expr loc first :: rest =>
    match s.prepend? limit first with
    | some s => s :: rest
    | none => s :: .expr loc first :: rest
  | before => s :: before

/-- Expressions joined by commas, also into the statement after them. -/
def joinExprs (limit : Nat) (list : List Stmt) : List Stmt :=
  (list.foldl (joinExpr limit) []).reverse

/-! ## Declarations -/

/-- The variables that the head of a loop declares, if it can take more. -/
def ForInit.vars? : ForInit → Option (List Declarator)
  | .none => some []
  | .decl d => if d.kind == .var then some d.declarators else Option.none
  | .expr _ => Option.none

def joinDecl (before : List Stmt) (s : Stmt) : List Stmt :=
  match before, s with
  | .varDecl d :: rest, .varDecl next =>
    if d.kind == next.kind then
      .varDecl { d with declarators := d.declarators ++ next.declarators } :: rest
    else .varDecl next :: .varDecl d :: rest
  | .varDecl d :: rest, .for loc init test update body =>
    match init.vars?, d.kind with
    | some vars, .var =>
      .for loc (.decl { d with declarators := d.declarators ++ vars }) test update body :: rest
    | _, _ => .for loc init test update body :: .varDecl d :: rest
  | before, s => s :: before

/-- Declarations of one kind joined, also into the head of a loop after them. -/
def joinDecls (list : List Stmt) : List Stmt := (list.foldl joinDecl []).reverse

namespace Compressor

def joinSequences (c : Compressor) (list : List Stmt) : List Stmt :=
  joinExprs (max c.options.sequencesLimit 2) list

/-- The statements that an action puts in the place of one. -/
def actionList (s : Stmt) (a : Action Stmt) : List Stmt := (a.settle s).toList

/-- Adds a statement before others.  If it is a return under a condition, the
others are put under the contrary condition instead. -/
def guardRest (c : Compressor) (s : Stmt) (rest : List Stmt) : Compressing (List Stmt) :=
  match s with
  | .if loc test body none =>
    if !body.isBareReturn || rest.any (·.isLexical) then return s :: rest
    else if rest.isEmpty then return c.effectsOf test
    else do
      let rest := if c.options.sequences then c.joinSequences rest else rest
      let test := c.negate test
      let body := Stmt.blockOrSingle loc rest
      return actionList (.if loc test body none) (← c.optimizeIf loc test body none)
  | s => return s :: rest

def mergeIfReturns (c : Compressor) (kind : BodyKind) (list : List Stmt) :
    Compressing (List Stmt) :=
  let list := mergeReturns (Stmt.withoutElseList list)
  if kind == .function then (dropFinalReturn list).foldrM c.guardRest [] else return list

/-- The rules for a list of statements that are all done. -/
def optimizeBody (c : Compressor) (kind : BodyKind) (list : List Stmt) :
    Compressing (List Stmt) := do
  let list := Stmt.openedList list
  let list ← if c.options.deadCode then c.dropUnreachable list else pure list
  let list ← if c.options.ifReturn then c.mergeIfReturns kind list else pure list
  let list := if c.options.collapseVars then collapseVars c.purity c.toplevel list else list
  let list := if c.options.sequences then c.joinSequences list else list
  return if c.options.joinVars then joinDecls list else list

end Compressor

end Laconic
