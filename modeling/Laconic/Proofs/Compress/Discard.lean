import Laconic.Proofs.Compress.Effects
import Mathlib.Data.List.ReduceOption

/-!
# Evaluating for effects alone

An interpretation leaves open what calls, assignments and the other operations do that can be
noticed: each is any transformer of the state that may also throw.  All other operators
combine the values of their operands, which are evaluated from left to right as far as they
are needed.  Whatever the interpretation, what `Purity.dropUnused` keeps of an expression does
to the state what the whole expression does, provided that nothing is declared to be without
effects.
-/

namespace Laconic

open Evaluating Purity

/-! ## Operands -/

def Property.operands : Property → List Expr
  | .value _ k e => keyParts k ++ [e]
  | .getter _ k _ | .setter _ k _ | .method _ k _ => keyParts k
  | .spread loc e => [.spread loc e]

/-- What is evaluated for a member when its class is defined. -/
def Member.operands : Member → List Expr
  | .method _ _ _ k _ | .property _ false k _ => keyParts k
  | .property _ true k e => keyParts k ++ e.toList
  | .staticBlock .. => []

def Member.isStaticBlock : Member → Bool
  | .staticBlock .. => true
  | _ => false

namespace Expr

variable {x : Expr}

/-- What is evaluated for an expression, in this order. -/
def operands : Expr → List Expr
  | .unary _ .typeof (.ident _) => []
  | .unary _ _ e | .chain _ e | .member _ _ e _ => [e]
  | .binary _ _ l r | .logical _ _ l r => [l, r]
  | .conditional _ t c a => [t, c, a]
  | .sequence _ es | .template _ _ es => es
  | .array _ es => es.reduceOption
  | .object _ ps => ps.flatMap Property.operands
  | .class ⟨_, _, superClass, body⟩ => superClass.toList ++ body.flatMap Member.operands
  | _ => []

/-- Whether an expression does something of its own. -/
def acts (p : Purity) : Expr → Bool
  | .ident id => p.identEffects id
  | .unary _ op _ => op == .delete
  | .binary _ op _ _ => op == .in || op == .instanceof
  | .array _ es => es.any (·.any (·.isSpread))
  | .object _ ps => p.propertyEffects ps
  | .class c => p.classEffects c || c.body.any (·.isStaticBlock)
  | .member _ _ o k => !isSafeMember o k
  | .call .. | .new .. | .super _ | .update .. | .assign .. | .tagged .. | .spread .. | .yield ..
  | .await .. | .importCall .. => true
  | _ => false

/-- Whether not all operands of an expression need to be evaluated. -/
def isChoice : Expr → Bool
  | .logical .. | .conditional .. => true
  | _ => false

/-- Whether a call or `new` is marked as having no effect. -/
def isMarked : Expr → Bool
  | .call _ _ pure _ _ | .new _ pure _ _ => pure
  | _ => false

/-- An expression for which no marked call is evaluated, other than by what acts as a whole. -/
inductive Unmarked : Expr → Prop where
  | intro {e : Expr} (h : e.isMarked = false) (hs : ∀ x ∈ e.operands, Unmarked x) : Unmarked e

theorem sizeOf_keyParts {k : PropName} (h : x ∈ keyParts k) : sizeOf x < sizeOf k := by
  cases k with
  | computed e =>
    obtain rfl := List.mem_singleton.mp h
    simp
  | _ => cases h

theorem sizeOf_flatMap {α : Type} [SizeOf α] {f : α → List Expr}
    (hf : ∀ a, ∀ x ∈ f a, sizeOf x ≤ sizeOf a) {as : List α} (h : x ∈ as.flatMap f) :
    sizeOf x < sizeOf as := by
  obtain ⟨a, ha, hx⟩ := List.mem_flatMap.mp h
  exact Nat.lt_of_le_of_lt (hf a x hx) (List.sizeOf_lt_of_mem ha)

theorem sizeOf_property (q : Property) (x : Expr) (h : x ∈ q.operands) : sizeOf x ≤ sizeOf q := by
  cases q <;> simp [Property.operands] at h ⊢ <;> grind [→ sizeOf_keyParts]

theorem sizeOf_member (m : Member) (x : Expr) (h : x ∈ m.operands) : sizeOf x ≤ sizeOf m := by
  unfold Member.operands at h
  split at h <;> simp at h ⊢ <;> grind [→ sizeOf_keyParts]

theorem sizeOf_operands {e : Expr} (h : x ∈ e.operands) : sizeOf x < sizeOf e := by
  unfold operands at h
  split at h
  case h_10 =>
    have := List.sizeOf_lt_of_mem (List.reduceOption_mem_iff.mp h)
    simp at this ⊢
    omega
  case h_11 =>
    have := sizeOf_flatMap sizeOf_property h
    simp
    omega
  case h_12 =>
    rcases List.mem_append.mp h with h | h
    · obtain rfl := Option.mem_toList.mp h
      simp
      omega
    · have := sizeOf_flatMap sizeOf_member h
      simp
      omega
  all_goals
    simp at h ⊢
    try grind [→ List.sizeOf_lt_of_mem]

end Expr

/-! ## Effects of operands -/

namespace Purity

/-- What is known about effects where nothing is declared to be without them. -/
def wary (tree : ScopeTree) : Purity := ⟨tree, false, []⟩

theorem isPureCall_wary (tree : ScopeTree) (callee : Expr) :
    (wary tree).isPureCall callee false = false := by
  unfold isPureCall
  cases callee.path? <;> rfl

variable (p : Purity)

theorem anyEffects_eq_any (es : List Expr) : p.anyEffects es = es.any (p.effects false) := by
  induction es with
  | nil => rfl
  | cons e es ih => rw [anyEffects, ih, List.any_cons]

theorem elementEffects_eq_any (es : List (Option Expr)) :
    p.elementEffects es = es.reduceOption.any (p.effects false) := by
  induction es with
  | nil => rfl
  | cons e es ih =>
    cases e with
    | none => exact ih
    | some e => rw [elementEffects, ih, List.reduceOption_cons_of_some, List.any_cons]

theorem keyEffects_eq_any (k : PropName) : p.keyEffects k = (keyParts k).any (p.effects false) := by
  cases k <;> simp [keyEffects, keyParts]

theorem optEffects_eq_any (e : Option Expr) : p.optEffects e = e.toList.any (p.effects false) := by
  cases e <;> simp [optEffects]

theorem propertyEffects_eq_any (qs : List Property) :
    p.propertyEffects qs = (qs.flatMap Property.operands).any (p.effects false) := by
  induction qs with
  | nil => rfl
  | cons q qs ih =>
    cases q <;> simp [propertyEffects, Property.operands, keyEffects_eq_any, ih, effects,
      Bool.or_assoc]

theorem memberEffects_eq_any (ms : List Member) : p.memberEffects ms
    = (ms.any (·.isStaticBlock) || (ms.flatMap Member.operands).any (p.effects false)) := by
  induction ms with
  | nil => rfl
  | cons m ms ih =>
    cases m with
    | property loc isStatic k e =>
      cases isStatic <;> simp [memberEffects, Member.operands, Member.isStaticBlock,
        keyEffects_eq_any, optEffects_eq_any, ih, Bool.or_assoc, Bool.or_left_comm]
    | _ => simp [memberEffects, Member.operands, Member.isStaticBlock, keyEffects_eq_any, ih,
        Bool.or_left_comm]

theorem effects_eq_any {tree : ScopeTree} {e : Expr} (h : e.isMarked = false) :
    (wary tree).effects false e
      = (e.acts (wary tree) || e.operands.any ((wary tree).effects false)) := by
  cases e with
  | call loc optional pure callee es | new loc pure callee es =>
    cases h
    simp [effects, Expr.acts, isPureCall_wary]
  | object loc qs => simp [effects, Expr.acts, Expr.operands, propertyEffects_eq_any]
  | array loc es =>
    rw [effects, Expr.acts, Expr.operands, elementEffects_eq_any]
    cases hspread : es.any (·.any (·.isSpread)) with
    | false => rfl
    | true =>
      obtain ⟨_ | e, he, hspread⟩ := List.any_eq_true.mp hspread
      · cases hspread
      cases e with
      | spread loc e =>
        exact List.any_eq_true.mpr ⟨_, List.reduceOption_mem_iff.mpr he, rfl⟩
      | _ => cases hspread
  | «class» c =>
    cases c
    simp [effects, Expr.acts, Expr.operands, classEffects, memberEffects_eq_any, optEffects_eq_any]
    grind
  | unary loc op e =>
    cases op with
    | typeof => cases e <;> simp [effects, Expr.acts, Expr.operands]
    | _ => simp [effects, Expr.acts, Expr.operands]
  | member loc optional o k =>
    have hk : isSafeMember o k = true → (wary tree).keyEffects k = false := by
      unfold isSafeMember
      split <;> simp [keyEffects]
    have hgetters : (wary tree).pureGetters = false := rfl
    cases h : isSafeMember o k with
    | false => simp [effects, Expr.acts, hgetters, h]
    | true => simp [effects, Expr.acts, Expr.operands, h, hk h]
  | _ => simp [effects, Expr.acts, Expr.operands, anyEffects_eq_any, Bool.or_assoc]

end Purity

/-- What is left open about the evaluation of expressions. -/
structure Interpretation (σ V : Type) where
  /-- Expressions that do something of their own. -/
  act : Expr → Evaluating σ V V
  /-- The value of any other expression, from those of its operands and the state. -/
  value : Expr → List V → σ → V
  truthy : V → Bool
  nullish : V → Bool

namespace Interpretation

variable {σ V : Type} (I : Interpretation σ V) (p : Purity)

def decides : LogicalOp → V → Bool
  | .and, v => !I.truthy v
  | .or, v => I.truthy v
  | .nullish, v => !I.nullish v

/-- The value of an expression and its effects, in order. -/
def eval : Expr → Evaluating σ V V
  | .logical _ op l r => do
    let v ← eval l
    if I.decides op v then return v else eval r
  | .conditional _ t c a => do if I.truthy (← eval t) then eval c else eval a
  | e =>
    if e.acts p then I.act e
    else do
      let vs ← e.operands.attach.mapM fun ⟨x, _⟩ => eval x
      return I.value e vs (← get)
termination_by e => sizeOf e
decreasing_by
  all_goals first | exact Expr.sizeOf_operands ‹_› | (simp <;> omega)

/-! ## What has no effects -/

/-- An evaluation that leaves the state alone and does not throw. -/
def Steady {α : Type} (m : Evaluating σ V α) : Prop := ∀ s, ∃ a, m.from s = (.ok a, s)

section Steady

variable {α β : Type} {m : Evaluating σ V α}

theorem steady_pure (a : α) : Steady (pure a : Evaluating σ V α) := fun _ => ⟨a, rfl⟩

theorem Steady.bind {f : α → Evaluating σ V β} (h : Steady m) (hf : ∀ a, Steady (f a)) :
    Steady (m >>= f) := by
  intro s
  obtain ⟨a, ha⟩ := h s
  rw [from_bind, ha]
  exact hf a s

theorem Steady.ite {c : Prop} [Decidable c] {m' : Evaluating σ V α} (h : Steady m)
    (h' : Steady m') : Steady (if c then m else m') := by
  split
  · exact h
  · exact h'

theorem steady_mapM {f : β → Evaluating σ V α} {xs : List β} (h : ∀ x ∈ xs, Steady (f x)) :
    Steady (xs.mapM f) := by
  induction xs with
  | nil => exact steady_pure []
  | cons x xs ih =>
    rw [List.mapM_cons]
    refine (h x (.head _)).bind fun a => ?_
    exact (ih fun x hx => h x (.tail _ hx)).bind fun as => steady_pure _

end Steady

variable {I p}

theorem eval_of_strict {e : Expr} (hc : e.isChoice = false) (h : e.acts p = false) :
    I.eval p e = do return I.value e (← e.operands.mapM (I.eval p)) (← get) := by
  unfold eval
  split
  · cases hc
  · cases hc
  · simp [h]

variable {tree : ScopeTree} {e : Expr}

/-- What has no effects gives a value and leaves the state alone. -/
theorem steady_eval (hm : e.Unmarked) (h : (wary tree).effects false e = false) :
    Steady (I.eval (wary tree) e) := by
  induction hm with
  | @intro e hm hs ih =>
    rw [effects_eq_any hm, Bool.or_eq_false_iff, List.any_eq_false] at h
    obtain ⟨hacts, h⟩ := h
    have ih : ∀ x ∈ e.operands, Steady (I.eval (wary tree) x) := fun x hx =>
      ih x hx (Bool.eq_false_iff.mpr (h x hx))
    cases e with
    | logical loc op l r =>
      rw [eval]
      exact (ih l (by simp [Expr.operands])).bind fun v =>
        (steady_pure v).ite (ih r (by simp [Expr.operands]))
    | conditional loc t c a =>
      rw [eval]
      exact (ih t (by simp [Expr.operands])).bind fun v =>
        (ih c (by simp [Expr.operands])).ite (ih a (by simp [Expr.operands]))
    | _ =>
      rw [eval_of_strict rfl hacts]
      exact (steady_mapM ih).bind fun vs s => ⟨_, rfl⟩

/-! ## Effects of several expressions -/

variable (I p) in
/-- The effects of an expression that may be absent. -/
def run : Option Expr → Evaluating σ V Unit
  | none => return ()
  | some e => (I.eval p e).dropped

theorem all_toList (o : Option Expr) : all (I.eval p) o.toList = I.run p o := by
  cases o <;> rfl

theorem dropped_mapM (es : List Expr) (f : List V → σ → V) :
    (do return f (← es.mapM (I.eval p)) (← get) : Evaluating σ V V).dropped
      = all (I.eval p) es := by
  induction es generalizing f with
  | nil => rfl
  | cons e es ih =>
    rw [all, ← funext fun v => ih (fun vs => f (v :: vs))]
    simp [dropped]

theorem dropped_of_strict (hc : e.isChoice = false) (h : e.acts p = false) :
    (I.eval p e).dropped = all (I.eval p) e.operands := by
  rw [eval_of_strict hc h]
  exact dropped_mapM _ _

theorem all_items (e : Expr) : all (I.eval p) e.items = (I.eval p e).dropped := by
  cases e with
  | sequence loc es =>
    rw [dropped_of_strict rfl rfl]
    rfl
  | _ => rfl

theorem all_flatMap_items (es : List Expr) :
    all (I.eval p) (es.flatMap Expr.items) = all (I.eval p) es := by
  induction es with
  | nil => rfl
  | cons e es ih =>
    rw [List.flatMap_cons, all_append, ih, all_items, all, dropped]
    simp

theorem run_sequence? (es : List Expr) : I.run p (sequence? es) = all (I.eval p) es := by
  unfold sequence?
  split
  · next hempty =>
    rw [List.isEmpty_iff.mp hempty]
    rfl
  · rw [run, ← all_flatMap_items es, Expr.mkSequence]
    split
    · next heq => rw [heq, ← all_items]; rfl
    · next heq => rw [heq]; rfl
    · next heq => rw [heq, ← all_items]; rfl

theorem dropped_logical (loc : Span) (op : LogicalOp) (l r : Expr) :
    (I.eval p (.logical loc op l r)).dropped = (do
      let v ← I.eval p l
      if I.decides op v then return () else (I.eval p r).dropped) := by
  rw [eval, dropped_ite]
  simp [dropped]

theorem dropped_conditional (loc : Span) (t c a : Expr) :
    (I.eval p (.conditional loc t c a)).dropped = (do
      let v ← I.eval p t
      if I.truthy v then (I.eval p c).dropped else (I.eval p a).dropped) := by
  rw [eval, dropped_ite]

/-! ## What is kept -/

theorem all_dropList {es : List Expr}
    (h : ∀ e ∈ es, I.run p (p.dropUnused e) = (I.eval p e).dropped) :
    all (I.eval p) (p.dropList es) = all (I.eval p) es := by
  induction es with
  | nil => rfl
  | cons e es ih =>
    rw [dropList, all_append, all_toList, h e (.head _), ih fun x hx => h x (.tail _ hx), all,
      dropped]
    simp

theorem dropElements_eq (es : List (Option Expr)) :
    p.dropElements es = p.dropList es.reduceOption := by
  induction es with
  | nil => rfl
  | cons e es ih =>
    cases e with
    | none => exact ih
    | some e => rw [dropElements, ih, List.reduceOption_cons_of_some, dropList]

theorem run_chooseEffects {loc : Span} {t c a : Expr} {o₁ o₂ o₃ : Option Expr}
    (ht : I.run p o₁ = (I.eval p t).dropped) (hc : I.run p o₂ = (I.eval p c).dropped)
    (ha : I.run p o₃ = (I.eval p a).dropped) :
    I.run p (chooseEffects t o₁ o₂ o₃) = (I.eval p (.conditional loc t c a)).dropped := by
  rw [dropped_conditional, ← hc, ← ha]
  cases o₂ with
  | none =>
    cases o₃ with
    | none => rw [chooseEffects, ht, dropped]; simp [run]
    | some a' => exact dropped_logical _ _ _ _
  | some c' =>
    cases o₃ with
    | none =>
      refine (dropped_logical _ _ _ _).trans ?_
      congr
      funext v
      cases h : I.truthy v <;> simp [decides, h, run]
    | some a' => exact dropped_conditional _ _ _ _

/-- What is kept of an expression does what the expression does. -/
theorem run_dropUnused (he : e.Unmarked) :
    I.run (wary tree) ((wary tree).dropUnused e) = (I.eval (wary tree) e).dropped := by
  induction he with
  | @intro e hm hs ih =>
    have hstrict : e.isChoice = false → e.acts (wary tree) = false →
        I.run (wary tree) (sequence? ((wary tree).dropList e.operands))
          = (I.eval (wary tree) e).dropped := fun hc h => by
      rw [run_sequence?, all_dropList ih, dropped_of_strict hc h]
    rw [dropUnused.eq_def]
    cases heffects : (wary tree).hasEffects e with
    | false =>
      refine Evaluating.ext fun s => ?_
      obtain ⟨v, hv⟩ := steady_eval (I := I) (.intro hm hs) heffects s
      rw [dropped, from_bind, hv]
      rfl
    | true =>
      simp only [Bool.not_true, Bool.false_eq_true, if_false]
      split
      · exact hstrict rfl rfl
      · next loc op l r =>
        split
        · rfl
        · rfl
        · next hin hinstanceof =>
          have h := hstrict rfl (by simpa [Expr.acts] using ⟨hin, hinstanceof⟩)
          simpa [Expr.operands, dropList] using h
      · next loc op l r =>
        rw [dropped_logical, ← ih r (.tail _ (.head _))]
        split
        · next hnone =>
          rw [hnone, ih l (.head _), dropped]
          simp [run]
        · next r' hsome =>
          rw [hsome]
          exact dropped_logical _ _ _ _
      · exact run_chooseEffects (ih _ (.head _)) (ih _ (.tail _ (.head _)))
          (ih _ (.tail _ (.tail _ (.head _))))
      · next loc op e =>
        split
        · rfl
        · next hdelete =>
          have hop : (Expr.unary loc op e).operands = [e] := by
            unfold Expr.operands
            split <;> simp_all [hasEffects, effects]
          rw [dropped_of_strict rfl (by simpa [Expr.acts] using hdelete), hop, ih e (by simp [hop])]
          rfl
      · next loc optional pure mloc moptional o k es =>
        obtain rfl : pure = false := hm
        rw [isPureCall_wary]
        rfl
      · next loc optional pure callee es _ =>
        obtain rfl : pure = false := hm
        rw [isPureCall_wary]
        rfl
      · next loc es =>
        split
        · rfl
        · next h =>
          rw [dropElements_eq]
          exact hstrict rfl (by rwa [Expr.acts, ← Bool.not_eq_true])
      · exact hstrict rfl rfl
      · rfl
      · rfl

/-- Every expression that acts adds one to the state. -/
def counting : Interpretation Nat Unit where
  act _ := modify (· + 1)
  value _ _ _ := ()
  truthy _ := false
  nullish _ := true

/-- The expression `f() ? this : f()`. -/
def pick : Expr :=
  let call := .call .nowhere false false (.ofName "f" .nowhere) []
  .conditional .nowhere call (.this .nowhere) call

/-- What is kept of it is `f() || f()`. -/
theorem run_dropUnused_pick :
    ((wary {}).dropUnused pick).any (·.operands.length == 2) = true ∧
      counting.run (wary {}) ((wary {}).dropUnused pick)
        = (counting.eval (wary {}) pick).dropped := by
  have hleaf (e : Expr) (hm : e.isMarked = false) (hnone : e.operands = []) : e.Unmarked :=
    .intro hm (hnone ▸ nofun)
  have hparts : ∀ x ∈ pick.operands, x.Unmarked := by
    simp only [pick, Expr.operands, List.forall_mem_cons]
    exact ⟨hleaf _ rfl rfl, hleaf _ rfl rfl, hleaf _ rfl rfl, nofun⟩
  exact ⟨rfl, run_dropUnused (.intro rfl hparts)⟩

end Interpretation

end Laconic
