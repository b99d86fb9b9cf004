import Laconic.Compress.Body
import Laconic.Proofs.Compress.Effects
import Laconic.Proofs.Tree.Rewriting

/-!
# Choices keep their meaning

Of a condition only the truth counts, so a double negation may go and a comparison may take
a negation in.  An `if` without `else` becomes an expression, or joins its condition to that
of the `if` inside it.  All of this keeps what the statement does under every meaning.
-/

namespace Laconic

open Behaviour Evaluating Compressor

/-! ## Conditions -/

namespace Meaning

section Test

variable {p : Purity} {σ V : Type} (M : Meaning p σ V)

theorem test_not (loc : Span) (e : Expr) :
    M.test (.unary loc .not e) = (do return !(← M.test e)) := by
  simp [test, M.eval_not, M.truthy_not]

theorem test_and (loc : Span) (l r : Expr) :
    M.test (.logical loc .and l r) = (do if ← M.test l then M.test r else return false) := by
  rw [test, M.eval_and, test, bind_assoc, bind_assoc]
  congr
  funext v
  cases h : M.truthy v <;> simp [h, test]

theorem test_or (loc : Span) (l r : Expr) :
    M.test (.logical loc .or l r) = (do if ← M.test l then return true else M.test r) := by
  rw [test, M.eval_or, test, bind_assoc, bind_assoc]
  congr
  funext v
  cases h : M.truthy v <;> simp [h, test]

theorem test_conditional (loc : Span) (t x y : Expr) :
    M.test (.conditional loc t x y) = (do if ← M.test t then M.test x else M.test y) := by
  rw [test, M.eval_conditional, test, bind_assoc, bind_assoc]
  congr
  funext v
  cases M.truthy v <;> simp [test]

def testLast (es : List Expr) : Evaluating σ V Bool := do
  return M.truthy (← last M.eval M.undefined es)

theorem test_sequence (loc : Span) {es : List Expr} (h : es ≠ []) :
    M.test (.sequence loc es) = M.testLast es := by
  rw [test, M.eval_sequence loc es h, testLast]

theorem testLast_cons_cons (e e' : Expr) (es : List Expr) :
    M.testLast (e :: e' :: es) = (do let _ ← M.eval e; M.testLast (e' :: es)) := by
  rw [testLast, last_cons_cons, bind_assoc]
  rfl

theorem test_negate (c : Compressor) (e : Expr) :
    M.test (c.negate e) = (do return !(← M.test e)) := by
  have hnot : ∀ e : Expr, M.test (.mkNot e) = (do return !(← M.test e)) :=
    fun e => M.test_not e.loc e
  unfold negate
  split
  · next loc op e =>
    split
    · next hop =>
      obtain rfl := beq_iff_eq.mp hop
      simp [M.test_not]
    · exact hnot _
  · next loc op l r =>
    split
    · next negated hop =>
      split
      · simp [test, M.eval_negated loc op negated l r hop, M.truthy_not]
      · exact hnot _
    · exact hnot _
  · exact hnot _

end Test

end Meaning

namespace Purity

variable {p : Purity} {e : Expr}

theorem keepsEffects_negate (c : Compressor) (h : p.keepsEffects e = true) :
    p.keepsEffects (c.negate e) = true := by
  unfold negate
  split
  · split
    · exact h
    · exact h
  · split
    · split
      · exact h
      · exact h
    · exact h
  · exact h

end Purity

namespace Meaning

variable {p : Purity} {σ V : Type} (M : Meaning p σ V) (c : Compressor)

mutual

theorem test_optimizeBool : ∀ e, p.keepsEffects e = true →
    M.test (c.optimizeBool e) = M.test e ∧ p.keepsEffects (c.optimizeBool e) = true
  | e, h => by
    cases e with
    | unary loc op e =>
      cases e with
      | unary loc' op' e =>
        by_cases hop : op = .not ∧ op' = .not
        · obtain ⟨rfl, rfl⟩ := hop
          obtain ⟨htest, hkeeps⟩ := test_optimizeBool e h
          rw [optimizeBool, M.test_not, M.test_not, htest]
          exact ⟨by simp, hkeeps⟩
        · cases op <;> cases op' <;> first | exact ⟨rfl, h⟩ | exact absurd ⟨rfl, rfl⟩ hop
      | _ => cases op <;> exact ⟨rfl, h⟩
    | logical loc op l r =>
      obtain ⟨hl, hr⟩ := Bool.and_eq_true_iff.mp h
      obtain ⟨hl₁, hl₂⟩ := test_optimizeBool l hl
      obtain ⟨hr₁, hr₂⟩ := test_optimizeBool r hr
      rw [optimizeBool]
      split
      · exact ⟨rfl, h⟩
      · refine ⟨?_, Bool.and_eq_true_iff.mpr ⟨hl₂, hr₂⟩⟩
        cases op with
        | and => rw [M.test_and, M.test_and, hl₁, hr₁]
        | or => rw [M.test_or, M.test_or, hl₁, hr₁]
        | nullish => contradiction
    | conditional loc t x y =>
      obtain ⟨htx, hy⟩ := Bool.and_eq_true_iff.mp h
      obtain ⟨ht, hx⟩ := Bool.and_eq_true_iff.mp htx
      obtain ⟨hx₁, hx₂⟩ := test_optimizeBool x hx
      obtain ⟨hy₁, hy₂⟩ := test_optimizeBool y hy
      rw [optimizeBool]
      refine ⟨?_, Bool.and_eq_true_iff.mpr ⟨Bool.and_eq_true_iff.mpr ⟨ht, hx₂⟩, hy₂⟩⟩
      rw [M.test_conditional, M.test_conditional, hx₁, hy₁]
    | sequence loc es =>
      obtain ⟨hne, hes⟩ := Bool.and_eq_true_iff.mp h
      have hne : es ≠ [] := by
        rintro rfl
        cases hne
      obtain ⟨hlast, hne', hes'⟩ := testLast_optimizeLast es hne hes
      rw [optimizeBool]
      refine ⟨?_, Bool.and_eq_true_iff.mpr ⟨?_, hes'⟩⟩
      · rw [M.test_sequence loc hne, M.test_sequence loc hne', hlast]
      · rw [Bool.not_eq_true', List.isEmpty_eq_false_iff]
        exact hne'
    | _ => exact ⟨rfl, h⟩

theorem testLast_optimizeLast : ∀ es, es ≠ [] → p.keepsAllEffects es = true →
    M.testLast (c.optimizeLast es) = M.testLast es ∧ c.optimizeLast es ≠ [] ∧
      p.keepsAllEffects (c.optimizeLast es) = true
  | [], hne, _ => absurd rfl hne
  | [e], _, h => by
    obtain ⟨htest, hkeeps⟩ := test_optimizeBool e (Bool.and_eq_true_iff.mp h).1
    exact ⟨htest, nofun, Bool.and_eq_true_iff.mpr ⟨hkeeps, rfl⟩⟩
  | e :: e' :: es, _, h => by
    obtain ⟨he, hes⟩ := Bool.and_eq_true_iff.mp h
    obtain ⟨htest, hne, hkeeps⟩ := testLast_optimizeLast (e' :: es) nofun hes
    have hcons : c.optimizeLast (e :: e' :: es) = e :: c.optimizeLast (e' :: es) := rfl
    obtain ⟨x, xs, hxs⟩ := List.exists_cons_of_ne_nil hne
    rw [hcons, hxs]
    rw [hxs] at htest hkeeps
    refine ⟨?_, nofun, Bool.and_eq_true_iff.mpr ⟨he, hkeeps⟩⟩
    rw [M.testLast_cons_cons, M.testLast_cons_cons, htest]

end

theorem test_condition {e : Expr} (h : p.keepsEffects e = true) :
    M.test (c.condition e) = M.test e ∧ p.keepsEffects (c.condition e) = true := by
  unfold condition
  split
  · exact M.test_optimizeBool c e h
  · exact ⟨rfl, h⟩

end Meaning

/-! ## Statements -/

namespace Stmt

variable {p : Purity} {ss : List Stmt}

mutual

/-- Whether all effects of the expressions are kept that the rules for statements reach. -/
def keepsEffects (p : Purity) : Stmt → Bool
  | .block ⟨_, body⟩ => keepsAllEffects p body
  | .expr _ e | .return _ (some e) | .throw _ e | .switch _ e _ | .for _ (.expr e) _ _ _ =>
    p.keepsEffects e
  | .if _ t c a => p.keepsEffects t && keepsEffects p c && keepsOptEffects p a
  | _ => true

/-- Whether all effects of the expressions in several statements are kept. -/
def keepsAllEffects (p : Purity) : List Stmt → Bool
  | [] => true
  | s :: rest => keepsEffects p s && keepsAllEffects p rest

/-- Whether all effects of the expressions in a statement are kept that may be absent. -/
def keepsOptEffects (p : Purity) : Option Stmt → Bool
  | none => true
  | some s => keepsEffects p s

end

theorem keepsAllEffects_iff : keepsAllEffects p ss = true ↔ ∀ s ∈ ss, s.keepsEffects p = true := by
  induction ss with
  | nil => simp [keepsAllEffects]
  | cons s ss ih => simp [keepsAllEffects, ih]

theorem keepsEffects_blockOrSingle (loc : Span) (h : keepsAllEffects p ss = true) :
    (blockOrSingle loc ss).keepsEffects p = true := by
  unfold blockOrSingle
  split
  · split
    · exact h
    · exact (Bool.and_eq_true_iff.mp h).1
  · exact h

end Stmt

namespace Meaning

section Statement

variable {p : Purity} {σ V : Type} (M : Meaning p σ V)

@[simp] theorem list_nil : M.list [] = skip := rfl

theorem list_cons (s : Stmt) (ss : List Stmt) :
    M.list (s :: ss) = seq (M.stmt [] s) (M.list ss) := rfl

@[simp] theorem list_singleton (s : Stmt) : M.list [s] = M.stmt [] s := by
  rw [list_cons, list_nil, seq_skip]

theorem list_append (ss ss' : List Stmt) : M.list (ss ++ ss') = seq (M.list ss) (M.list ss') := by
  induction ss with
  | nil => simp
  | cons s ss ih => rw [List.cons_append, list_cons, ih, list_cons, seq_assoc]

theorem evaluated_dropped (m : Evaluating σ V V) (k : Unit → Behaviour σ V) :
    evaluated m.dropped k = evaluated m fun _ => k () := by
  rw [dropped, evaluated_bind]
  rfl

def guarded (t : Expr) (a : Behaviour σ V) : Behaviour σ V :=
  evaluated (M.test t) fun b => if b then a else skip

theorem stmt_if_none (labels : List String) (loc : Span) (t : Expr) (s : Stmt) :
    M.stmt labels (.if loc t s none) = M.guarded t (M.stmt [] s) := rfl

/-- Of a condition on which nothing depends only the effects count. -/
theorem guarded_skip (t : Expr) :
    M.guarded t skip = evaluated (M.eval t).dropped fun _ => skip := by
  rw [guarded, test, evaluated_dropped, evaluated_bind]
  simp

theorem guarded_guarded (loc : Span) (t t' : Expr) (a : Behaviour σ V) :
    M.guarded (.logical loc .and t t') a = M.guarded t (M.guarded t' a) := by
  unfold guarded
  rw [M.test_and, evaluated_bind]
  congr
  funext b
  cases b <;> simp

theorem seq_guarded (t : Expr) (a b : Behaviour σ V) :
    seq (M.guarded t a) b = evaluated (M.test t) fun x => if x then seq a b else b := by
  rw [guarded, seq_evaluated]
  refine congrArg (evaluated (M.test t)) (funext fun x => ?_)
  cases x with
  | false => exact skip_seq b
  | true => rfl

theorem stmt_blockOrSingle (loc : Span) (ss : List Stmt) :
    M.stmt [] (.blockOrSingle loc ss) = M.list ss := by
  unfold Stmt.blockOrSingle
  split
  · split
    · rfl
    · exact (M.list_singleton _).symm
  · rfl

theorem evaluated_test (t : Expr) (k : Bool → Behaviour σ V) :
    evaluated (M.test t) k = evaluated (M.eval t) fun v => k (M.truthy v) := by
  rw [test, evaluated_bind]
  rfl

theorem evaluated_negate (c : Compressor) (t : Expr) (k : Bool → Behaviour σ V) :
    evaluated (M.test (c.negate t)) k = evaluated (M.test t) fun b => k (!b) := by
  rw [M.test_negate, evaluated_bind]
  rfl

theorem guarded_negate (c : Compressor) (t : Expr) (a : Behaviour σ V) :
    M.guarded (c.negate t) a = evaluated (M.test t) fun x => if x then skip else a := by
  rw [guarded, M.evaluated_negate]
  refine congrArg (evaluated (M.test t)) (funext fun x => ?_)
  cases x <;> rfl

theorem evaluated_and (loc : Span) (l r : Expr) :
    (evaluated (M.eval (.logical loc .and l r)) fun _ => skip)
      = M.guarded l (evaluated (M.eval r) fun _ => skip) := by
  rw [guarded, M.evaluated_test, M.eval_and, evaluated_bind]
  congr
  funext v
  cases M.truthy v <;> rfl

theorem evaluated_or (loc : Span) (l r : Expr) :
    (evaluated (M.eval (.logical loc .or l r)) fun _ => skip)
      = evaluated (M.test l) fun b => if b then skip else evaluated (M.eval r) fun _ => skip := by
  rw [M.evaluated_test, M.eval_or, evaluated_bind]
  congr
  funext v
  cases M.truthy v <;> rfl

mutual

theorem stmt_of_isVoid : ∀ s : Stmt, s.isVoid = true → M.stmt [] s = skip
  | .empty _, _ => rfl
  | .block ⟨_, body⟩, h => list_of_areVoid body h

/-- Void statements do nothing. -/
theorem list_of_areVoid : ∀ ss, Stmt.areVoid ss = true → M.list ss = skip
  | [], _ => rfl
  | s :: ss, h => by
    obtain ⟨hs, hss⟩ := Bool.and_eq_true_iff.mp h
    rw [list_cons, stmt_of_isVoid s hs, list_of_areVoid ss hss, skip_seq]

end

end Statement

/-! ## An `if` without `else` -/

/-- Statements do something, and their effects will all be kept. -/
def Does {p : Purity} {σ V : Type} (M : Meaning p σ V) (ss : List Stmt)
    (b : Behaviour σ V) : Prop :=
  M.list ss = b ∧ Stmt.keepsAllEffects p ss = true

section If

variable {c : Compressor} {σ V : Type} {M : Meaning c.purity σ V} {t : Expr} {body : Stmt}

theorem does_effectsOf (h : c.purity.keepsEffects t = true) :
    M.Does (c.effectsOf t) (M.guarded t skip) := by
  obtain ⟨hact, hkeeps⟩ := M.kept_dropUnused t h
  rw [guarded_skip, ← hact]
  unfold effectsOf
  cases ho : c.purity.dropUnused t with
  | none => exact ⟨rfl, rfl⟩
  | some e =>
    refine ⟨(M.list_singleton _).trans (evaluated_dropped (M.eval e) fun _ => skip).symm, ?_⟩
    exact Bool.and_eq_true_iff.mpr ⟨hkeeps e ho, rfl⟩

theorem actionList_testEffects (s : Stmt) : actionList s (c.testEffects t) = c.effectsOf t := by
  unfold testEffects effectsOf
  split
  · next h => rw [h]; rfl
  · next e h => rw [h]; rfl

theorem does_guarded {e : Expr} (ht : c.purity.keepsEffects t = true)
    (he : c.purity.keepsEffects e = true) :
    M.Does [c.guarded t e] (M.guarded t (evaluated (M.eval e) fun _ => skip)) := by
  unfold Compressor.guarded
  split
  · refine ⟨?_, ?_⟩
    · rw [list_singleton]
      refine (M.evaluated_or _ _ _).trans ?_
      rw [M.evaluated_negate, guarded]
      congr
      funext b
      cases b <;> rfl
    · simp [Stmt.keepsAllEffects, Stmt.ofExpr, Stmt.keepsEffects, Expr.mkLogical,
        Purity.keepsEffects, Purity.keepsEffects_negate c ht, he]
  · refine ⟨(M.list_singleton _).trans (M.evaluated_and _ _ _), ?_⟩
    simp [Stmt.keepsAllEffects, Stmt.ofExpr, Stmt.keepsEffects, Expr.mkLogical,
      Purity.keepsEffects, ht, he]

theorem pruned?_eq (hdead : c.options.deadCode = false) (s : IfStmt) :
    c.pruned? s = pure (none, s) := by
  rw [pruned?, hdead]
  rfl

theorem does_if (loc : Span) (ht : c.purity.keepsEffects t = true)
    (hbody : body.keepsEffects c.purity = true) :
    M.Does [.if loc t body none] (M.guarded t (M.stmt [] body)) := by
  refine ⟨M.list_singleton _, ?_⟩
  simp [Stmt.keepsAllEffects, Stmt.keepsEffects, Stmt.keepsOptEffects, ht, hbody]

theorem optimizeThen_does (hdead : c.options.deadCode = false) (loc : Span) (t : Expr) (body : Stmt)
    (ht : c.purity.keepsEffects t = true) (hbody : body.keepsEffects c.purity = true) :
    Gives (c.optimizeThen loc t body) fun a =>
      ∀ s, M.Does (actionList s a) (M.guarded t (M.stmt [] body)) := by
  fun_induction c.optimizeThen loc t body with
  | case1 t loc' inner body joined ih =>
    obtain ⟨hinner, hbody⟩ : c.purity.keepsEffects inner = true
      ∧ body.keepsEffects c.purity = true := by
      simpa [Stmt.keepsEffects, Stmt.keepsOptEffects] using hbody
    have hand : c.purity.keepsEffects (.mkLogical .and t inner) = true :=
      Bool.and_eq_true_iff.mpr ⟨ht, hinner⟩
    obtain ⟨htest, hjoined⟩ := M.test_condition c hand
    have hguarded : M.guarded t (M.stmt [] (.if loc' inner body none))
        = M.guarded joined (M.stmt [] body) := by
      rw [stmt_if_none, ← M.guarded_guarded, guarded, guarded, htest]
      rfl
    rw [hguarded, pruned?_eq hdead, pure_bind]
    change Gives (if body.isVoid then _ else _) _
    split
    · next hvoid =>
      refine .pure fun s => ?_
      rw [actionList_testEffects, M.stmt_of_isVoid body hvoid]
      exact does_effectsOf hjoined
    · exact ih hjoined hbody
  | case2 t _ e => exact .pure fun s => does_guarded ht hbody
  | case3 t body _ _ => exact .pure fun s => does_if loc ht hbody

theorem optimizeIf_does (hdead : c.options.deadCode = false) (loc : Span)
    (ht : c.purity.keepsEffects t = true) (hbody : body.keepsEffects c.purity = true) :
    Gives (c.optimizeIf loc t body none) fun a =>
      ∀ s, M.Does (actionList s a) (M.guarded t (M.stmt [] body)) := by
  obtain ⟨htest, hkeeps⟩ := M.test_condition c ht
  have hguarded : M.guarded t (M.stmt [] body) = M.guarded (c.condition t) (M.stmt [] body) := by
    rw [guarded, guarded, htest]
  rw [hguarded, optimizeIf, pruned?_eq hdead, pure_bind]
  change Gives (if !c.options.conditionals then _ else _) _
  split
  · exact .pure fun s => does_if loc hkeeps hbody
  · split
    · next hvoid =>
      refine .pure fun s => ?_
      rw [actionList_testEffects, M.stmt_of_isVoid body hvoid]
      exact does_effectsOf hkeeps
    · exact optimizeThen_does hdead loc _ body hkeeps hbody

end If

end Meaning

end Laconic
