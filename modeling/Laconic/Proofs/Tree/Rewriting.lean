import Laconic.Tree.Rewriter

/-!
# What rewriting gives

A rewriter keeps to properties of statements and expressions if all that it puts in the
place of a node has them.  What becomes of one node then has them, provided that its
rewritten parts do.
-/

namespace Laconic

variable {α : Type}

/-! ## Computations with a state -/

/-- Whatever the state, a computation gives something with a property. -/
def Gives {σ α : Type} (m : StateM σ α) (P : α → Prop) : Prop := ∀ s, P (m.run s).run.1

namespace Gives

variable {σ α β : Type} {m : StateM σ α} {f : α → StateM σ β} {P : α → Prop} {Q : β → Prop}

theorem pure {a : α} (h : P a) : Gives (σ := σ) (pure a) P := fun _ => h

theorem bind (hm : Gives m P) (hf : ∀ a, P a → Gives (f a) Q) : Gives (m >>= f) Q :=
  fun s => hf _ (hm s) _

/-! Nodes that are put together from their parts, each of which has a property. -/

section Parts

variable {γ δ ε : Type} {m₂ : StateM σ β} {m₃ : StateM σ γ} {m₄ : StateM σ δ}
  {R : γ → Prop} {S : δ → Prop} {T : ε → Prop}

theorem one {g : α → ε} (h : Gives m P) (hT : ∀ a, P a → T (g a) := by exact fun _ h => h) :
    Gives (do return g (← m)) T :=
  h.bind fun a ha => .pure (hT a ha)

theorem two {g : α → β → ε} (h : Gives m P) (h₂ : Gives m₂ Q)
    (hT : ∀ a b, P a ∧ Q b → T (g a b) := by exact fun _ _ h => h) :
    Gives (do return g (← m) (← m₂)) T :=
  h.bind fun a ha => h₂.one fun b hb => hT a b ⟨ha, hb⟩

theorem three {g : α → β → γ → ε} (h : Gives m P) (h₂ : Gives m₂ Q) (h₃ : Gives m₃ R)
    (hT : ∀ a b c, P a ∧ Q b ∧ R c → T (g a b c) := by exact fun _ _ _ h => h) :
    Gives (do return g (← m) (← m₂) (← m₃)) T :=
  h.bind fun a ha => h₂.two h₃ fun b c hbc => hT a b c ⟨ha, hbc⟩

theorem four {g : α → β → γ → δ → ε} (h : Gives m P) (h₂ : Gives m₂ Q) (h₃ : Gives m₃ R)
    (h₄ : Gives m₄ S)
    (hT : ∀ a b c d, P a ∧ Q b ∧ R c ∧ S d → T (g a b c d) := by exact fun _ _ _ _ h => h) :
    Gives (do return g (← m) (← m₂) (← m₃) (← m₄)) T :=
  h.bind fun a ha => h₂.three h₃ h₄ fun b c d hbcd => hT a b c d ⟨ha, hbcd⟩

end Parts

theorem mono {P' : α → Prop} (hm : Gives m P) (h : ∀ a, P a → P' a) : Gives m P' :=
  fun s => h _ (hm s)

theorem and {P' : α → Prop} (hm : Gives m P) (hm' : Gives m P') : Gives m fun a => P a ∧ P' a :=
  fun s => ⟨hm s, hm' s⟩

theorem ite {b : Prop} [Decidable b] {m m' : StateM σ α} (hm : b → Gives m P)
    (hm' : ¬b → Gives m' P) : Gives (if b then m else m') P := by
  split
  · exact hm ‹b›
  · exact hm' ‹¬b›

theorem unknown : Gives m fun _ => True := fun _ => trivial

theorem mapM {as : List α} (h : ∀ a ∈ as, Gives (f a) Q) :
    Gives (as.mapM f) fun bs => ∀ b ∈ bs, Q b := by
  induction as with
  | nil => exact .pure nofun
  | cons a as ih =>
    rw [List.mapM_cons]
    refine bind (h a List.mem_cons_self) fun b hb => ?_
    refine bind (ih fun x hx => h x (List.mem_cons_of_mem _ hx)) fun bs hbs => ?_
    exact .pure (List.forall_mem_cons.mpr ⟨hb, hbs⟩)

end Gives

/-! ## One node -/

/-- All that an action puts in the place of a node has a property. -/
def Action.All {α : Type} (P : α → Prop) : Action α → Prop
  | .replace node => P node
  | .splice nodes => ∀ node ∈ nodes, P node
  | .keep | .remove | .stop => True

/-- All that has become of a node has a property. -/
def Outcome.All {α : Type} (P : α → Prop) : Outcome α → Prop
  | .one node => P node
  | .gone => True
  | .many nodes => ∀ node ∈ nodes, P node

theorem Action.All.settle {P : α → Prop} {a : Action α} {node : α} (h : a.All P) (hnode : P node) :
    (a.settle node).All P := by
  cases a with
  | keep | stop => exact hnode
  | replace new => exact h
  | remove => trivial
  | splice nodes => exact h

theorem Outcome.All.toList {P : α → Prop} {o : Outcome α} (h : o.All P) : ∀ a ∈ o.toList, P a := by
  cases o with
  | one node => exact List.forall_mem_singleton.mpr h
  | gone => nofun
  | many nodes => exact h

/-- A rewriter keeps to a property of statements, which may depend on what is around them, and
to one of expressions.  It waits with statements until their parts are rewritten. -/
structure Rewriter.Keeps {σ ι : Type} (r : Rewriter σ) (P : ι → Stmt → Prop) (Q : Expr → Prop) :
    Prop where
  beforeStmt : ∀ s, r.beforeStmt s = pure .keep
  afterStmt : ∀ i s, P i s → Gives (r.afterStmt s) (·.All (P i))
  beforeExpr : ∀ e, Q e → Gives (r.beforeExpr e) (·.All Q)
  afterExpr : ∀ e, Q e → Gives (r.afterExpr e) (·.All Q)
  afterStmts : ∀ i kind list, (∀ s ∈ list, P i s) →
    Gives (r.afterStmts kind list) fun list => ∀ s ∈ list, P i s

def Newcomers.Keeps {σ : Type} (n : Newcomers σ) (Q : Expr → Prop) : Prop :=
  ∀ e, Q e → Gives (n.expr e) (·.All Q)

namespace Rewriter.Keeps

variable {σ ι : Type} {r : Rewriter σ} {n : Newcomers σ} {P : ι → Stmt → Prop} {Q : Expr → Prop}
  {i : ι}

theorem processStmt_eq (hr : r.Keeps P Q) (s : Stmt) (parts : StateM σ Stmt) :
    r.processStmt n s parts = r.finishStmt parts := by
  unfold Rewriter.processStmt
  rw [hr.beforeStmt s, pure_bind]

theorem processStmt (hr : r.Keeps P Q) (s : Stmt) {parts : StateM σ Stmt}
    (hparts : Gives parts (P i)) : Gives (r.processStmt n s parts) (·.All (P i)) := by
  rw [hr.processStmt_eq]
  exact hparts.bind fun s hs => (hr.afterStmt i s hs).bind fun _ ha => .pure (ha.settle hs)

theorem finishExpr (hr : r.Keeps P Q) {parts : StateM σ Expr} (hparts : Gives parts Q) :
    Gives (r.finishExpr parts) (·.All Q) :=
  hparts.bind fun e he => (hr.afterExpr e he).bind fun _ ha => .pure (ha.settle he)

theorem flatMap_toList {α : Type} {P : α → Prop} {outcomes : List (Outcome α)}
    (h : ∀ o ∈ outcomes, o.All P) : ∀ a ∈ outcomes.flatMap Outcome.toList, P a := by
  intro a ha
  obtain ⟨o, ho, ha⟩ := List.mem_flatMap.mp ha
  exact (h o ho).toList a ha

theorem processExpr (hr : r.Keeps P Q) (hn : n.Keeps Q) {e : Expr} {parts : StateM σ Expr}
    (he : Q e) (hparts : Gives parts Q) : Gives (r.processExpr n e parts) (·.All Q) := by
  refine (hr.beforeExpr e he).bind fun a ha => ?_
  cases a with
  | keep => exact hr.finishExpr hparts
  | replace new => exact hn new ha
  | remove => exact .pure trivial
  | stop => exact .pure he
  | splice nodes =>
    exact (Gives.mapM fun e he => hn e (ha e he)).bind fun _ h => .pure (flatMap_toList h)

end Rewriter.Keeps

end Laconic
