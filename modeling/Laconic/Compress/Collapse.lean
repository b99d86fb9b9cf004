import Laconic.Compress.Basic
import Laconic.Tree.Nodes

/-!
# Values moved to their only use

In `var x = e; f(x)` the value can be moved to the use of `x`, if that is the
only one and nothing that is evaluated before it can notice the difference.
-/

namespace Laconic

namespace Collapse

/-- What is moved where. -/
structure Move where
  purity : Purity
  /-- The symbol whose use is looked for. -/
  target : Nat
  value : Expr

/-- What the search for the use has come to. -/
inductive Search (α : Type) where
  /-- The use is not here, and what is here may be evaluated before the value. -/
  | absent
  /-- The use was here, and the value is in its place now. -/
  | placed (result : α)
  /-- The value cannot be moved. -/
  | blocked

namespace Search

/-- Puts the part with the value into its place. -/
def map {α β : Type} (f : α → β) : Search α → Search β
  | .absent => .absent
  | .placed a => .placed (f a)
  | .blocked => .blocked

/-- Goes on with the next part if the use is not in the first one. -/
def orElse {α : Type} (first second : Search α) : Search α :=
  match first with
  | .absent => second
  | found => found

/-- Lets the value be moved only into the part that was searched. -/
def orBlocked {α : Type} (s : Search α) : Search α :=
  match s with
  | .absent => .blocked
  | found => found

end Search

namespace Move

/-- Whether an identifier is the use that is looked for. -/
def isTarget (m : Move) (id : Ident) : Bool := id.symbol == some m.target

def mentions (m : Move) (e : Expr) : Bool :=
  (Nodes.expr e).any fun n => n.ident?.any m.isTarget

/-- Whether an expression may be evaluated before the value. -/
def mayPrecede (m : Move) (e : Expr) : Bool :=
  e.isConstant || (!m.purity.hasEffects m.value && !m.purity.hasEffects e)

/-- The search in what is called, given the search in it as an expression.  A
dotted path may be evaluated before the value, and a member is not moved into
the place of a function, which would give it another `this`. -/
def searchCallee (m : Move) (callee : Expr) (found : Search Expr) : Search Expr :=
  match callee with
  | .ident id =>
    if m.isTarget id then if m.value matches .member .. then .blocked else .placed m.value
    else .absent
  | callee => if !m.mentions callee && callee.path?.isSome then .absent else found

mutual

/-- Searches an expression in the order of its evaluation. -/
def search (m : Move) (e : Expr) : Search Expr :=
  if e.ident?.any m.isTarget then .placed m.value
  else if !m.mentions e then if m.mayPrecede e then .absent else .blocked
  else
    match e with
    | .unary loc op e => if op == .delete then .blocked else (search m e).map (.unary loc op ·)
    | .binary loc op l r =>
      ((search m l).map (.binary loc op · r)).orElse ((search m r).map (.binary loc op l ·))
    | .logical loc op l r => ((search m l).map (.logical loc op · r)).orBlocked
    | .conditional loc t x y => ((search m t).map (.conditional loc · x y)).orBlocked
    | .sequence loc es => (searchList m es).map (.sequence loc ·)
    | .member loc false o p =>
      ((search m o).map (.member loc false · p)).orElse
        ((searchName m p).map (.member loc false o ·))
    | .call loc false pure callee es =>
      ((m.searchCallee callee (search m callee)).map (.call loc false pure · es)).orElse
        (if es.any (·.isSpread) then .blocked
        else (searchList m es).map (.call loc false pure callee ·))
    | .new loc pure callee es =>
      ((m.searchCallee callee (search m callee)).map (.new loc pure · es)).orElse
        (if es.any (·.isSpread) then .blocked
        else (searchList m es).map (.new loc pure callee ·))
    | .assign loc .plain (.expr (.ident id)) v =>
      if m.isTarget id then .blocked
      else (search m v).map (.assign loc .plain (.expr (.ident id)) ·)
    | .array loc es =>
      if es.any (·.any (·.isSpread)) then .blocked else (searchElements m es).map (.array loc ·)
    | .template loc quasis es => (searchList m es).map (.template loc quasis ·)
    | _ => .blocked

def searchList (m : Move) : List Expr → Search (List Expr)
  | [] => .absent
  | e :: rest => ((search m e).map (· :: rest)).orElse ((searchList m rest).map (e :: ·))

def searchElements (m : Move) : List (Option Expr) → Search (List (Option Expr))
  | [] => .absent
  | none :: rest => (searchElements m rest).map (none :: ·)
  | some e :: rest =>
    ((search m e).map (some · :: rest)).orElse ((searchElements m rest).map (some e :: ·))

def searchName (m : Move) : PropName → Search PropName
  | .computed e => (search m e).map .computed
  | _ => .blocked

end

def searchDeclarators (m : Move) : List Declarator → Search (List Declarator)
  | ⟨loc, target, some e⟩ :: rest => (m.search e).map fun e => ⟨loc, target, some e⟩ :: rest
  | _ => .blocked

/-- Searches the expression that a statement evaluates first. -/
def searchStmt (m : Move) : Stmt → Search Stmt
  | .expr loc e => (m.search e).map (.expr loc ·)
  | .return loc (some e) => (m.search e).map fun e => .return loc (some e)
  | .throw loc e => (m.search e).map (.throw loc ·)
  | .if loc test c a => (m.search test).map (.if loc · c a)
  | .switch loc e cases => (m.search e).map (.switch loc · cases)
  | .varDecl d =>
    (m.searchDeclarators d.declarators).map fun ds => .varDecl { d with declarators := ds }
  | .for loc (.expr e) test update body =>
    (m.search e).map fun e => .for loc (.expr e) test update body
  | .for loc (.decl d) test update body =>
    (m.searchDeclarators d.declarators).map fun ds =>
      .for loc (.decl { d with declarators := ds }) test update body
  | _ => .blocked

end Move

/-- Whether a symbol has one use and no effect of its own. -/
def isMovable (t : ScopeTree) (toplevel : Bool) (id : Nat) (s : Symbol) : Bool :=
  s.references.length == 1 && s.assignments == 0 && s.declarations.length == 1 && !s.escaped
    && !s.exported && !s.undeclared && !t.isPinned id && (toplevel || !t.isToplevel id)

/-- Moves the value of the last variable of a declaration into the next statement;
the declaration loses the variable. -/
def moveLast? (p : Purity) (toplevel : Bool) (d : VarDecl) (next : Stmt) :
    Option (VarDecl × Stmt) :=
  match d.declarators.getLast? with
  | some ⟨_, .ident name, some value⟩ => do
    let id ← name.symbol
    let s ← p.tree.symbols[id]?
    if isMovable p.tree toplevel id s then
      match (⟨p, id, value⟩ : Move).searchStmt next with
      | .placed next => some ({ d with declarators := d.declarators.dropLast }, next)
      | _ => none
    else none
  | _ => none

/-! ## Lists of statements -/

/-- How many variables a statement declares directly. -/
def declaratorCount : Stmt → Nat
  | .varDecl d => d.declarators.length
  | _ => 0

def totalCount : List Stmt → Nat
  | [] => 0
  | s :: rest => declaratorCount s + totalCount rest

/-- A search that succeeds gives the placed result of an inner search. -/
theorem Search.map_eq_placed {α β : Type} {f : α → β} {s : Search α} {b : β}
    (h : s.map f = .placed b) : ∃ a, s = .placed a ∧ f a = b := by
  cases s <;> simp_all [Search.map]

/-- Searching the first variable of a declaration keeps their number. -/
theorem length_of_searchDeclarators {m : Move} {ds ds' : List Declarator}
    (h : m.searchDeclarators ds = .placed ds') : ds'.length = ds.length := by
  unfold Move.searchDeclarators at h
  split at h
  · obtain ⟨e, -, rfl⟩ := Search.map_eq_placed h
    simp
  · simp at h

/-- Searching a statement keeps the number of variables that it declares. -/
theorem declaratorCount_of_searchStmt {m : Move} {s s' : Stmt}
    (h : m.searchStmt s = .placed s') : declaratorCount s' = declaratorCount s := by
  unfold Move.searchStmt at h
  split at h
  case h_6 d =>
    obtain ⟨ds, hds, rfl⟩ := Search.map_eq_placed h
    simpa [declaratorCount] using length_of_searchDeclarators hds
  case h_9 => simp at h
  all_goals
    obtain ⟨e, -, rfl⟩ := Search.map_eq_placed h
    rfl

/-- The declaration loses one variable and the next statement none. -/
theorem count_of_moveLast? {p : Purity} {toplevel : Bool} {d d' : VarDecl} {next next' : Stmt}
    (h : moveLast? p toplevel d next = some (d', next')) :
    d'.declarators.length + 1 = d.declarators.length
      ∧ declaratorCount next' = declaratorCount next := by
  unfold moveLast? at h
  split at h
  case h_1 hlast =>
    have hne : d.declarators ≠ [] := by
      intro hnil
      simp [hnil] at hlast
    have hpos : 0 < d.declarators.length := List.length_pos_iff.2 hne
    simp only [bind, Option.bind_eq_some_iff] at h
    obtain ⟨id, -, s, -, h⟩ := h
    split at h
    · split at h
      · rename_i hsearch
        obtain ⟨rfl, rfl⟩ : _ ∧ _ := by simpa using h
        refine ⟨?_, declaratorCount_of_searchStmt hsearch⟩
        simp
        omega
      · simp at h
    · simp at h
  case h_2 => simp at h

/-- Moves values as far as possible.  `before` holds the statements before the
present one, the last first; after a move the search goes on at the same place,
or one place back if nothing is left of the declaration. -/
def collapseFrom (p : Purity) (toplevel : Bool) (before : List Stmt) (s : Stmt) :
    List Stmt → List Stmt
  | [] => (s :: before).reverse
  | next :: rest =>
    match s with
    | .varDecl d =>
      match _h : moveLast? p toplevel d next with
      | some (d', next') =>
        if d'.declarators.isEmpty then
          match before with
          | [] => collapseFrom p toplevel [] next' rest
          | last :: before => collapseFrom p toplevel before last (next' :: rest)
        else collapseFrom p toplevel before (.varDecl d') (next' :: rest)
      | none => collapseFrom p toplevel (.varDecl d :: before) next rest
    | s => collapseFrom p toplevel (s :: before) next rest
termination_by rest => totalCount before + declaratorCount s + totalCount rest + rest.length
decreasing_by
  all_goals
    simp_wf
    try have hc := count_of_moveLast? _h
    simp_all [totalCount, declaratorCount]
    try omega

end Collapse

/-- Moves values to their only use throughout a list of statements. -/
def collapseVars (p : Purity) (toplevel : Bool) : List Stmt → List Stmt
  | [] => []
  | s :: rest => Collapse.collapseFrom p toplevel [] s rest

end Laconic
