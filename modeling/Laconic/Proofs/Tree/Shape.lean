import Laconic.Grammar.Expression

/-!
# What an expression says

Two expressions say the same if they differ in nothing but the places of their nodes and
the grouping of chains of `&&` and of `||`.  `Expr.shape` forgets the places and groups
the chains to the left.  The symbols of names and the marks of calls without effects are
no part of the syntax; the flag of `Expr.shape` says whether they are kept.

The shape looks into the operators, accesses and calls; other nodes are left as they are.
-/

namespace Laconic

namespace Expr

/-- The operation of two shapes.  A chain of the same operator on the right is grouped to
the left, unless the operator is `??`. -/
def regroup (op : LogicalOp) (a : Expr) : Expr → Expr
  | .logical loc op' b c =>
    if op' = op ∧ op ≠ .nullish then .logical .nowhere op (regroup op a b) c
    else .logical .nowhere op a (.logical loc op' b c)
  | b => .logical .nowhere op a b

end Expr

/-- A name without its place, and without its symbol unless that is kept. -/
def Ident.shape (keeps : Bool) (id : Ident) : Ident :=
  ⟨.nowhere, id.name, if keeps then id.symbol else none⟩

mutual

/-- An expression without the places of its nodes and with its chains grouped to the left. -/
def Expr.shape (keeps : Bool) : Expr → Expr
  | .num _ x => .num .nowhere x
  | .str lit => .str ⟨.nowhere, lit.value, lit.raw⟩
  | .ident id => .ident (id.shape keeps)
  | .this _ => .this .nowhere
  | .unary _ op e => .unary .nowhere op (e.shape keeps)
  | .update _ op before e => .update .nowhere op before (e.shape keeps)
  | .binary _ op a b => .binary .nowhere op (a.shape keeps) (b.shape keeps)
  | .logical _ op a b => Expr.regroup op (a.shape keeps) (b.shape keeps)
  | .conditional _ t c a => .conditional .nowhere (t.shape keeps) (c.shape keeps) (a.shape keeps)
  | .assign _ op (.expr e) v => .assign .nowhere op (.expr (e.shape keeps)) (v.shape keeps)
  | .sequence _ es => .sequence .nowhere (Expr.shapes keeps es)
  | .member _ optional e p => .member .nowhere optional (e.shape keeps) (p.shape keeps)
  | .call _ optional pure e es =>
    .call .nowhere optional (keeps && pure) (e.shape keeps) (Expr.shapes keeps es)
  | .new _ pure e es => .new .nowhere (keeps && pure) (e.shape keeps) (Expr.shapes keeps es)
  | e => e

def Expr.shapes (keeps : Bool) : List Expr → List Expr
  | [] => []
  | e :: es => e.shape keeps :: Expr.shapes keeps es

def PropName.shape (keeps : Bool) : PropName → PropName
  | .ident id => .ident (id.shape keeps)
  | .computed e => .computed (e.shape keeps)
  | p => p

end

namespace Expr

theorem shapes_eq_map (keeps : Bool) (es : List Expr) : shapes keeps es = es.map (shape keeps) := by
  induction es with
  | nil => rfl
  | cons e es ih => rw [shapes, ih, List.map_cons]

theorem regroup_assoc {op : LogicalOp} (hop : op ≠ .nullish) (a b c : Expr) :
    regroup op (regroup op a b) c = regroup op a (regroup op b c) := by
  fun_induction regroup op b c with
  | case1 loc op' c d hsame ih =>
    rw [regroup, if_pos hsame, ih, regroup, if_pos ⟨rfl, hop⟩]
  | case2 loc op' c d hother =>
    rw [regroup, if_neg hother, regroup, if_pos ⟨rfl, hop⟩]
  | case3 c hc =>
    rw [regroup, if_pos ⟨rfl, hop⟩]
    cases c <;> first | rfl | exact absurd rfl (hc _ _ _ _)

theorem exists_regroup (op : LogicalOp) (a b : Expr) :
    ∃ x y, regroup op a b = .logical .nowhere op x y := by
  fun_cases regroup op a b <;> exact ⟨_, _, rfl⟩

def isSequence : Expr → Bool
  | .sequence .. => true
  | _ => false

/-! ## What the shape keeps -/

theorem isArrow_shape (keeps : Bool) (e : Expr) :
    Parse.isArrow (e.shape keeps) = Parse.isArrow e := by
  fun_cases shape keeps e <;> try rfl
  obtain ⟨x, y, h⟩ := exists_regroup _ _ _
  rw [h]
  rfl

theorem isSequence_shape (keeps : Bool) (e : Expr) : (e.shape keeps).isSequence = e.isSequence := by
  fun_cases shape keeps e <;> try rfl
  obtain ⟨x, y, h⟩ := exists_regroup _ _ _
  rw [h]
  rfl

theorem isSimpleTarget_shape (keeps : Bool) (e : Expr) :
    Parse.isSimpleTarget false (e.shape keeps) = Parse.isSimpleTarget false e := by
  fun_cases shape keeps e <;> try rfl
  obtain ⟨x, y, h⟩ := exists_regroup _ _ _
  rw [h]
  rfl

/-! ## Reading -/

/-- What an expression is read as: the same expression, without symbols and marks. -/
def ReadsAs (e e' : Expr) : Prop := e'.shape true = e.shape false

def ListReadsAs (es es' : List Expr) : Prop := es'.map (shape true) = es.map (shape false)

section ReadsAs

variable {e e' : Expr} {es es' : List Expr}

theorem ReadsAs.isArrow_eq (h : e.ReadsAs e') : Parse.isArrow e' = Parse.isArrow e := by
  rw [← isArrow_shape true, h, isArrow_shape]

theorem ReadsAs.isSimpleTarget_eq (h : e.ReadsAs e') :
    Parse.isSimpleTarget false e' = Parse.isSimpleTarget false e := by
  rw [← isSimpleTarget_shape true, h, isSimpleTarget_shape]

theorem ReadsAs.exists_ident {id : Ident} (h : (ident id).ReadsAs e') :
    ∃ id', e' = .ident id' ∧ id'.shape true = id.shape false := by
  cases e' with
  | ident id' => exact ⟨id', rfl, Expr.ident.inj h⟩
  | logical loc op a b =>
    have hshape : regroup op (a.shape true) (b.shape true) = .ident (id.shape false) := h
    obtain ⟨x, y, hxy⟩ := exists_regroup op (a.shape true) (b.shape true)
    rw [hxy] at hshape
    cases hshape
  | assign loc op p v => cases p <;> cases h
  | _ => cases h

theorem ReadsAs.apply {op : Parse.InfixOp} {a a' : Expr} (h : e.ReadsAs e') (ha : a.ReadsAs a')
    (loc loc' : Span) : (op.apply loc e a).ReadsAs (op.apply loc' e' a') := by
  unfold ReadsAs Parse.InfixOp.apply
  cases op with
  | binary op | logical op => rw [shape, shape, h, ha]

theorem ListReadsAs.cons (h : e.ReadsAs e') (hes : ListReadsAs es es') :
    ListReadsAs (e :: es) (e' :: es') := by
  unfold ListReadsAs
  rw [List.map_cons, List.map_cons, h, hes]

/-- An expression stands for some expressions with commas between them. -/
def IsSequenceOf (e : Expr) (es : List Expr) : Prop :=
  (∀ x ∈ es, x.isSequence = false) ∧ (es = [e] ∨ ∃ loc, e = .sequence loc es ∧ 2 ≤ es.length)

theorem items_of_not_isSequence (h : e.isSequence = false) : e.items = [e] := by
  cases e <;> first | rfl | cases h

theorem IsSequenceOf.ne_nil (h : e.IsSequenceOf es) : es ≠ [] := by
  rintro rfl
  rcases h.2 with heq | ⟨_, _, hlength⟩
  · cases heq
  · cases hlength

theorem IsSequenceOf.readsAs_mkSequence (h : e.IsSequenceOf es) (hes : ListReadsAs es es') :
    e.ReadsAs (mkSequence es') := by
  obtain ⟨hitems, h⟩ := h
  have hitems' : ∀ x' ∈ es', x'.isSequence = false := by
    intro x' hx'
    have hmem : x'.shape true ∈ es.map (shape false) := by
      rw [← hes]
      exact List.mem_map_of_mem hx'
    obtain ⟨x, hx, heq⟩ := List.mem_map.mp hmem
    rw [← isSequence_shape true, ← heq, isSequence_shape]
    exact hitems x hx
  have hflat : es'.flatMap items = es' := by
    have hsingle : ∀ l : List Expr, (∀ x ∈ l, x.isSequence = false) → l.flatMap items = l := by
      intro l hl
      induction l with
      | nil => rfl
      | cons x l ih =>
        rw [List.flatMap_cons, items_of_not_isSequence (hl x List.mem_cons_self),
          ih fun y hy => hl y (List.mem_cons_of_mem _ hy)]
        rfl
    exact hsingle es' hitems'
  unfold mkSequence
  rw [hflat]
  have hlen : es'.length = es.length := by
    simpa using congrArg List.length hes
  rcases h with rfl | ⟨loc, rfl, h2⟩
  · match es', hes with
    | [e'], hes => exact List.head_eq_of_cons_eq hes
  · match es', hlen, hes with
    | [], hlen, _ | [x], hlen, _ => simp at hlen; omega
    | x :: y :: rest, _, hes =>
      show Expr.sequence .nowhere (shapes true (x :: y :: rest))
        = .sequence .nowhere (shapes false es)
      rw [shapes_eq_map, shapes_eq_map, hes]

end ReadsAs

end Expr

/-! ## Statements -/

/-- The heads of loops without places. -/
def ForInit.shape (keeps : Bool) : ForInit → ForInit
  | .expr e => .expr (e.shape keeps)
  | init => init

def ForTarget.shape (keeps : Bool) : ForTarget → ForTarget
  | .pat (.ident id) => .pat (.ident (id.shape keeps))
  | target => target

/-- The statement that stands alone in braces. -/
def Stmt.unbraced : Stmt → Stmt
  | .block ⟨_, [s]⟩ => s
  | s => s

mutual

/-- A statement without the places of its nodes, and without the braces around the only
statement in the first branch of an `if`.  It looks into loops, branches, blocks and labels. -/
def Stmt.outline (keeps : Bool) : Stmt → Stmt
  | .expr _ e => .expr .nowhere (e.shape keeps)
  | .empty _ => .empty .nowhere
  | .block ⟨_, body⟩ => .block ⟨.nowhere, Stmt.outlines keeps body⟩
  | .if _ e c a => .if .nowhere (e.shape keeps) (c.outline keeps).unbraced (Stmt.outlineOpt keeps a)
  | .for _ init test update b =>
    .for .nowhere (init.shape keeps) (test.map (·.shape keeps)) (update.map (·.shape keeps))
      (b.outline keeps)
  | .forIn _ target e b =>
    .forIn .nowhere (target.shape keeps) (e.shape keeps) (b.outline keeps)
  | .while _ e b => .while .nowhere (e.shape keeps) (b.outline keeps)
  | .doWhile _ b e => .doWhile .nowhere (b.outline keeps) (e.shape keeps)
  | .with _ e b => .with .nowhere (e.shape keeps) (b.outline keeps)
  | .labeled _ label b => .labeled .nowhere (label.shape keeps) (b.outline keeps)
  | s => s

def Stmt.outlines (keeps : Bool) : List Stmt → List Stmt
  | [] => []
  | s :: ss => s.outline keeps :: Stmt.outlines keeps ss

def Stmt.outlineOpt (keeps : Bool) : Option Stmt → Option Stmt
  | none => none
  | some s => some (s.outline keeps)

end

theorem Stmt.outlines_eq_map (keeps : Bool) (ss : List Stmt) :
    outlines keeps ss = ss.map (outline keeps) := by
  induction ss with
  | nil => rfl
  | cons s ss ih => rw [outlines, ih, List.map_cons]

/-- What a statement is read as: the same one, without symbols and marks. -/
def Stmt.RereadAs (s s' : Stmt) : Prop := s'.outline true = s.outline false

/-- What a statement of an expression is read as. -/
def Stmt.ReadsAs : Stmt → Stmt → Prop
  | .expr _ e, .expr _ e' => e.ReadsAs e'
  | _, _ => False

end Laconic
