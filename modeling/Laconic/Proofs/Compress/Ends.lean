import Laconic.Compress.Pass
import Laconic.Proofs.Compress.StatementRules
import Mathlib.Data.Finset.Card

/-!
# Rewriting comes to an end

Three recursions of a pass do not follow the tree that is rewritten.  The body of a function
that takes the place of a call is rewritten in turn, an `if` that has taken over the condition
of the `if` inside it is looked at again, and after a value has been moved the search goes on at
the same place.

Each of them is stated here as it calls itself, cut off after a number of calls inside each
other, with something arbitrary in the place of what is cut off (`cutOff`).  From some number on
that is never asked for: the functions that are being expanded differ, a merged `if` is a part
of the one before, and every move takes away a variable.
-/

namespace Laconic

section CutOff

variable {α β : Type} (step : (α → β) → α → β)

/-- A recursion of which `calls` calls can be inside each other, with `beyond` in the place of
the calls inside those. -/
def cutOff (beyond : α → β) : Nat → α → β
  | 0 => step beyond
  | calls + 1 => step (cutOff beyond calls)

/-- A recursion that only calls itself for what is smaller does not reach its bound. -/
theorem cutOff_eq {step} (size : α → Nat) (f : α → β) (hf : ∀ a, f a = step f a)
    (hstep : ∀ g a, (∀ a', size a' < size a → g a' = f a') → step g a = step f a) (beyond : α → β)
    {calls : Nat} {a : α} (h : size a ≤ calls) : cutOff step beyond calls a = f a := by
  induction calls generalizing a with
  | zero =>
    rw [hf]
    exact hstep beyond a fun a' hlt => by omega
  | succ calls ih =>
    rw [hf]
    exact hstep _ a fun a' hlt => ih (by omega)

end CutOff

/-! ## Rewriters without newcomers -/

namespace Rewriter

variable {σ : Type} {r : Rewriter σ}

/-- A rewriter puts nothing in the place of a node before its parts are rewritten. -/
structure Waits (r : Rewriter σ) : Prop where
  stmt : ∀ n n' : Newcomers σ, r.processStmt n = r.processStmt n'
  expr : ∀ n n' : Newcomers σ, r.processExpr n = r.processExpr n'

theorem Waits.slots (h : r.Waits) (n n' : Newcomers σ) :
    r.exprSlot n = r.exprSlot n' ∧ r.stmtSlot n = r.stmtSlot n' := by
  unfold exprSlot stmtSlot
  rw [h.expr n n', h.stmt n n']
  exact ⟨rfl, rfl⟩

/-- The recursion through a tree asks for newcomers only where it rewrites a node. -/
theorem Waits.parts_eq (h : r.Waits) (n n' : Newcomers σ) :
    exprParts r n = exprParts r n' ∧ stmts r n = stmts r n' := by
  obtain ⟨hexpr, hstmt⟩ := h.slots n n'
  delta exprParts stmts exprParts._f propName._f func._f arrow._f block._f classDef._f pat._f
    varDecl._f forInit._f forTarget._f stmtParts._f exprs._f elements._f properties._f optExpr._f
    pats._f stmts._f members._f patElements._f patProperties._f declarators._f optPat._f optStmt._f
    switchCases._f handler._f optBlock._f
  rw [hexpr, hstmt, h.stmt n n']
  exact ⟨rfl, rfl⟩

/-- How deep newcomers may be inside each other does not matter where there are none. -/
theorem Waits.depth_eq (h : r.Waits) (depth depth' : Nat) :
    r.expr depth = r.expr depth' ∧ r.program depth = r.program depth' := by
  unfold Rewriter.expr program
  obtain ⟨hexpr, hstmts⟩ := h.parts_eq (r.newcomers depth) (r.newcomers depth')
  rw [hexpr, hstmts, (h.slots _ (r.newcomers depth')).1]
  exact ⟨rfl, rfl⟩

end Rewriter

namespace Compressor

variable {c : Compressor} {inlining : List Nat} {id : Nat}

/-! ## Bodies in the place of calls -/

/-- The rewriter of a pass, given how the bodies that take the place of calls are rewritten. -/
def withExpansion (c : Compressor) (inlining : List Nat) (expand : Nat → Expr → Compressing Expr) :
    Rewriter Progress :=
  { c.rewriter 0 inlining with afterExpr := c.optimizeExpr inlining expand }

/-- The rewriter inside some expansions, given those inside more of them. -/
def expansionStep (c : Compressor) (newcomers : Nat) (within : List Nat → Rewriter Progress)
    (inlining : List Nat) : Rewriter Progress :=
  c.withExpansion inlining fun id => (within (id :: inlining)).expr newcomers

/-- The symbols of functions that are not being expanded. -/
def unexpanded (c : Compressor) (inlining : List Nat) : Finset Nat :=
  Finset.range c.tree.symbols.size \ inlining.toFinset

theorem mem_unexpanded {e value : Expr} (h : c.expansion? inlining e = some (id, value)) :
    id ∈ c.unexpanded inlining := by
  unfold expansion? at h
  split at h
  · split at h
    · simp only [inlineCall?, bind, Option.bind_eq_some_iff] at h
      obtain ⟨_, -, _, hnew, s, hs, _, -, _, -, _, -, _, -, _, -, _, -, _, -, h⟩ := h
      cases h
      have hlt := (Array.getElem?_eq_some_iff.mp hs).1
      simpa [unexpanded, hlt] using hnew
    · cases h
  · cases h

/-- Expanding one more call leaves one function less. -/
theorem card_unexpanded_cons (h : id ∈ c.unexpanded inlining) :
    (c.unexpanded (id :: inlining)).card + 1 = (c.unexpanded inlining).card := by
  have herase : c.unexpanded (id :: inlining) = (c.unexpanded inlining).erase id := by
    rw [unexpanded, List.toFinset_cons, Finset.sdiff_insert]
    rfl
  rw [herase, Finset.card_erase_add_one h]

/-- The rules ask for the expansion of a call only where there is one. -/
theorem withExpansion_congr {f g : Nat → Expr → Compressing Expr}
    (h : ∀ id ∈ c.unexpanded inlining, f id = g id) :
    c.withExpansion inlining f = c.withExpansion inlining g := by
  have hrules : c.optimizeExpr inlining f = c.optimizeExpr inlining g := by
    funext e
    unfold optimizeExpr
    split
    · split
      · rfl
      · split
        · next hexpand => rw [h _ (mem_unexpanded hexpand)]
        · rfl
    · rfl
  unfold withExpansion
  rw [hrules]

theorem waits_withExpansion (c : Compressor) (inlining : List Nat)
    (expand : Nat → Expr → Compressing Expr) : (c.withExpansion inlining expand).Waits := by
  refine ⟨fun _ _ => rfl, fun n n' => ?_⟩
  funext e parts
  show (pure (beforeExpr e) >>= _) = (pure (beforeExpr e) >>= _)
  unfold beforeExpr
  split <;> rfl

theorem waits_rewriter (c : Compressor) (depth : Nat) (inlining : List Nat) :
    (c.rewriter depth inlining).Waits := by
  cases depth <;> exact waits_withExpansion c inlining _

/-- With as many expansions inside each other as there are functions left, the rewriter is that
of the recursion without a bound. -/
theorem rewriter_eq_step (newcomers : Nat) (inlining : List Nat) :
    c.rewriter (c.unexpanded inlining).card inlining
      = c.expansionStep newcomers (fun within => c.rewriter (c.unexpanded within).card within)
        inlining := by
  cases hcard : (c.unexpanded inlining).card with
  | zero =>
    refine withExpansion_congr fun id hid => ?_
    rw [Finset.card_eq_zero.mp hcard] at hid
    cases hid
  | succ depth =>
    refine withExpansion_congr fun id hid => ?_
    have hless := card_unexpanded_cons hid
    dsimp only
    rw [show (c.unexpanded (id :: inlining)).card = depth by omega]
    exact ((waits_rewriter ..).depth_eq 0 newcomers).1

/-! ## Conditions that are merged -/

/-- The rules for an `if` without `else`; `again` looks at one with merged conditions. -/
def thenStep (c : Compressor) (loc : Span) (again : Expr × Stmt → Compressing (Action Stmt)) :
    Expr × Stmt → Compressing (Action Stmt)
  | (test, .if _ inner body none) => do
    let test := c.condition (.mkLogical .and test inner)
    match ← c.pruned? ⟨loc, test, body, none⟩ with
    | (some list, _) => return spliceStmts list
    | (none, _) => if body.isVoid then return c.testEffects test else again (test, body)
  | (test, .expr _ body) => return .replace (c.guarded test body)
  | (test, body) => return .replace (.if loc test body none)

end Compressor

/-- How many conditions can be merged into the one before a statement. -/
def Stmt.merges : Stmt → Nat
  | .if _ _ body none => body.merges + 1
  | _ => 0

namespace Compressor

variable {c : Compressor}

theorem optimizeThen_eq_step (c : Compressor) (loc : Span) (a : Expr × Stmt) :
    c.optimizeThen loc a.1 a.2 = c.thenStep loc (fun a => c.optimizeThen loc a.1 a.2) a := by
  obtain ⟨test, s⟩ := a
  fun_cases optimizeThen c loc test s with
  | case1 => rfl
  | case2 => rfl
  | case3 => simp_all [thenStep]

/-- The `if` with merged conditions has one condition less inside it. -/
theorem thenStep_congr {loc : Span} {f g : Expr × Stmt → Compressing (Action Stmt)}
    {a : Expr × Stmt} (h : ∀ a', a'.2.merges < a.2.merges → f a' = g a') :
    c.thenStep loc f a = c.thenStep loc g a := by
  unfold thenStep
  split
  · refine bind_congr fun pruned => ?_
    split
    · rfl
    · rw [h _ (Nat.lt_succ_self _)]
  · rfl
  · rfl

end Compressor

/-! ## Values that are moved -/

namespace Collapse

/-- One round of moving values; `again` goes on. -/
def collapseStep (p : Purity) (toplevel : Bool) (again : List Stmt × Stmt × List Stmt → List Stmt) :
    List Stmt × Stmt × List Stmt → List Stmt
  | (before, s, []) => (s :: before).reverse
  | (before, .varDecl d, next :: rest) =>
    match moveLast? p toplevel d next with
    | some (d', next') =>
      if d'.declarators.isEmpty then
        match before with
        | [] => again ([], next', rest)
        | last :: before => again (before, last, next' :: rest)
      else again (before, .varDecl d', next' :: rest)
    | none => again (.varDecl d :: before, next, rest)
  | (before, s, next :: rest) => again (s :: before, next, rest)

/-- The variables and statements that are left. -/
def left (a : List Stmt × Stmt × List Stmt) : Nat :=
  totalCount a.1 + declaratorCount a.2.1 + totalCount a.2.2 + a.2.2.length

theorem collapseFrom_eq_step (p : Purity) (toplevel : Bool) (a : List Stmt × Stmt × List Stmt) :
    collapseFrom p toplevel a.1 a.2.1 a.2.2
      = collapseStep p toplevel (fun a => collapseFrom p toplevel a.1 a.2.1 a.2.2) a := by
  obtain ⟨before, s, rest⟩ := a
  fun_cases collapseFrom p toplevel before s rest <;> simp_all [collapseStep]

/-- Every round takes away a variable or goes on to the next statement. -/
theorem collapseStep_congr (p : Purity) (toplevel : Bool)
    {f g : List Stmt × Stmt × List Stmt → List Stmt} {a : List Stmt × Stmt × List Stmt}
    (h : ∀ a', left a' < left a → f a' = g a') :
    collapseStep p toplevel f a = collapseStep p toplevel g a := by
  unfold collapseStep
  split
  · rfl
  · split
    · next hmove =>
      have hcount := count_of_moveLast? hmove
      split
      · split
        all_goals
          refine h _ ?_
          simp only [left, totalCount, declaratorCount.eq_1, List.length_cons]
          omega
      · exact h _ (by simp only [left, totalCount, declaratorCount.eq_1, List.length_cons]; omega)
    · exact h _ (by simp only [left, totalCount, List.length_cons]; omega)
  · exact h _ (by simp only [left, totalCount, List.length_cons]; omega)

end Collapse

/-- One round of rewriting comes to an end: calls are expanded no deeper than there are symbols,
no node is put in the place of another before its parts are rewritten, conditions are merged no
more often than they are inside each other, and values are moved in no more rounds than there are
variables and statements.  What would be done beyond that does not matter. -/
theorem rewriting_ends (c : Compressor) (extra : Nat) :
    (∀ newcomers beyond, (cutOff (c.expansionStep newcomers) beyond
        (c.tree.symbols.size + extra) []).program newcomers
      = (c.rewriter c.tree.symbols.size []).program 0) ∧
    (∀ loc test s beyond, cutOff (c.thenStep loc) beyond (s.merges + extra) (test, s)
      = c.optimizeThen loc test s) ∧
    ∀ s rest beyond, cutOff (Collapse.collapseStep c.purity c.toplevel) beyond
        (Collapse.totalCount (s :: rest) + rest.length + extra) ([], s, rest)
      = collapseVars c.purity c.toplevel (s :: rest) := by
  refine ⟨fun newcomers beyond => ?_, fun loc test s beyond => ?_, fun s rest beyond => ?_⟩
  · have hcard : (c.unexpanded []).card = c.tree.symbols.size := by simp [Compressor.unexpanded]
    rw [cutOff_eq (fun inlining => (c.unexpanded inlining).card) _
      (Compressor.rewriter_eq_step newcomers) (fun g inlining h =>
        Compressor.withExpansion_congr fun id hid => ?_) beyond (by omega), hcard]
    · exact ((Compressor.waits_rewriter ..).depth_eq newcomers 0).2
    · have hless := Compressor.card_unexpanded_cons hid
      rw [h _ (by omega)]
  · exact cutOff_eq (fun a => a.2.merges) (fun a => c.optimizeThen loc a.1 a.2)
      (c.optimizeThen_eq_step loc) (fun g a => Compressor.thenStep_congr) beyond (a := (test, s))
      (Nat.le_add_right ..)
  · refine cutOff_eq Collapse.left
      (fun a => Collapse.collapseFrom c.purity c.toplevel a.1 a.2.1 a.2.2)
      (Collapse.collapseFrom_eq_step _ _) (fun g a => Collapse.collapseStep_congr _ _) beyond
      (a := ([], s, rest)) ?_
    simp only [Collapse.left, Collapse.totalCount]
    omega

end Laconic
