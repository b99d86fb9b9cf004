import Laconic.Proofs.Semantics.Meaning

/-!
# A meaning that counts calls

The state is a number, and each call adds one to it.  Every expression has a truth value that
does not depend on the state; comparisons and logical operators respect it.  So the laws of a
meaning can all hold together, and a call that has got lost is noticed.
-/

namespace Laconic

open Evaluating

variable {α : Type}

namespace Expr

mutual

def holds : Expr → Bool
  | .unary _ .not e => !holds e
  | .binary _ op _ _ => op == .eq || op == .strictEq
  | .logical _ .and l r => holds l && holds r
  | .logical _ .or l r => holds l || holds r
  | .logical _ .nullish l _ => holds l
  | .conditional _ t c a => if holds t then holds c else holds a
  | .sequence _ es => lastHolds es
  | _ => false

/-- The truth value of the last of several expressions. -/
def lastHolds : List Expr → Bool
  | [] => false
  | [e] => holds e
  | _ :: es => lastHolds es

end

end Expr

namespace Purity

mutual

/-- The number of calls that the evaluation of an expression makes. -/
def calls (p : Purity) : Expr → Nat
  | .unary _ _ e => calls p e
  | .binary _ _ l r => calls p l + calls p r
  | .logical _ .and l r => calls p l + if l.holds then calls p r else 0
  | .logical _ .or l r => calls p l + if l.holds then 0 else calls p r
  | .logical _ .nullish l _ => calls p l
  | .conditional _ t c a => calls p t + if t.holds then calls p c else calls p a
  | .sequence _ es | .template _ _ es => allCalls p es
  | .array _ es => elementCalls p es
  | .member _ _ o k => calls p o + keyCalls p k
  | .call _ _ pure callee es =>
    (if p.isPureCall callee pure then 0 else 1)
      + (if p.effects true callee then calls p callee else 0) + allCalls p es
  | _ => 0

def allCalls (p : Purity) : List Expr → Nat
  | [] => 0
  | e :: es => calls p e + allCalls p es

def elementCalls (p : Purity) : List (Option Expr) → Nat
  | [] => 0
  | none :: es => elementCalls p es
  | some e :: es => calls p e + elementCalls p es

def keyCalls (p : Purity) : PropName → Nat
  | .computed e => calls p e
  | _ => 0

end

/-- An operation without effects has an operand without effects, or the name that `typeof`
may be asked about. -/
theorem effects_operand (p : Purity) {loc : Span} {op : UnaryOp} {e : Expr}
    (h : p.effects false (.unary loc op e) = false) :
    p.effects false e = false ∨ ∃ id, e = .ident id := by
  cases op with
  | delete => cases h
  | typeof =>
    cases e with
    | ident id => exact .inr ⟨id, rfl⟩
    | _ => exact .inl h
  | _ => exact .inl h

mutual

theorem calls_eq_zero (p : Purity) : ∀ e, p.effects false e = false → p.calls e = 0
  | .unary _ op e, h => by
    obtain he | ⟨id, rfl⟩ := p.effects_operand h
    · exact calls_eq_zero p e he
    · rfl
  | .binary _ op l r, h => by
    simp only [effects, Bool.or_eq_false_iff] at h
    rw [calls, calls_eq_zero p l h.1.2, calls_eq_zero p r h.2]
  | .logical _ op l r, h => by
    simp only [effects, Bool.or_eq_false_iff] at h
    have hl := calls_eq_zero p l h.1
    have hr := calls_eq_zero p r h.2
    cases op <;> simp [calls, hl, hr]
  | .conditional _ t c a, h => by
    simp only [effects, Bool.or_eq_false_iff] at h
    simp [calls, calls_eq_zero p t h.1.1, calls_eq_zero p c h.1.2, calls_eq_zero p a h.2]
  | .sequence _ es, h | .template _ _ es, h => allCalls_eq_zero p es h
  | .array _ es, h => elementCalls_eq_zero p es h
  | .member _ _ o k, h => by
    simp only [effects, Bool.false_eq_true, if_false, Bool.or_eq_false_iff] at h
    rw [calls, calls_eq_zero p o h.1.2, keyCalls_eq_zero p k h.2]
  | .call _ _ pure callee es, h => by
    simp only [effects, Bool.or_eq_false_iff, Bool.not_eq_false'] at h
    obtain ⟨⟨⟨hpure, -⟩, hes⟩, hcallee⟩ := h
    simp [calls, hpure, hcallee, allCalls_eq_zero p es hes]
  | .null _, _ | .bool .., _ | .num .., _ | .str _, _ | .bigint .., _ | .regexp .., _
  | .ident _, _ | .this _, _ | .super _, _ | .object .., _ | .function _, _ | .arrow _, _
  | .class _, _ | .update .., _ | .assign .., _ | .new .., _ | .chain .., _ | .tagged .., _
  | .spread .., _ | .yield .., _ | .await .., _ | .importCall .., _ | .metaProperty .., _ => rfl

theorem allCalls_eq_zero (p : Purity) : ∀ es, p.anyEffects es = false → p.allCalls es = 0
  | [], _ => rfl
  | e :: es, h => by
    obtain ⟨he, hes⟩ := Bool.or_eq_false_iff.mp h
    rw [allCalls, calls_eq_zero p e he, allCalls_eq_zero p es hes]

theorem elementCalls_eq_zero (p : Purity) :
    ∀ es, p.elementEffects es = false → p.elementCalls es = 0
  | [], _ => rfl
  | none :: es, h => elementCalls_eq_zero p es h
  | some e :: es, h => by
    obtain ⟨he, hes⟩ := Bool.or_eq_false_iff.mp h
    rw [elementCalls, calls_eq_zero p e he, elementCalls_eq_zero p es hes]

theorem keyCalls_eq_zero (p : Purity) : ∀ k, p.keyEffects k = false → p.keyCalls k = 0
  | .computed e, h => calls_eq_zero p e h
  | .ident _, _ | .privateName .., _ | .str _, _ | .num .., _ => rfl

end

end Purity

/-- Adds a number to the state and gives a result. -/
def tally {α : Type} (n : Nat) (x : α) : Evaluating Nat Bool α := do
  modify (· + n)
  return x

theorem tally_zero (x : α) : tally 0 x = pure x := rfl

theorem from_tally (n : Nat) (x : α) (s : Nat) :
    (tally n x).from s = (.ok x, s + n) := rfl

theorem tally_bind {β : Type} (n m : Nat) (x : α) (y : β) {f : α → Evaluating Nat Bool β}
    (h : f x = tally m y) : tally n x >>= f = tally (n + m) y := by
  refine Evaluating.ext fun s => ?_
  rw [from_bind, from_tally]
  simp only [h, from_tally, Nat.add_assoc]

namespace Purity

variable (p : Purity) {es : List Expr}

def count (e : Expr) : Evaluating Nat Bool Bool := tally (p.calls e) e.holds

theorem all_count (es : List Expr) : all p.count es = tally (p.allCalls es) () := by
  induction es with
  | nil => rfl
  | cons e es ih =>
    rw [all]
    exact tally_bind _ _ _ _ ih

theorem last_count (h : es ≠ []) :
    last p.count false es = tally (p.allCalls es) (Expr.lastHolds es) := by
  induction es with
  | nil => exact absurd rfl h
  | cons e es ih =>
    cases es with
    | nil => rfl
    | cons e' es => exact tally_bind _ _ _ _ (ih nofun)

theorem allCalls_append (es es' : List Expr) :
    p.allCalls (es ++ es') = p.allCalls es + p.allCalls es' := by
  induction es with
  | nil => exact (Nat.zero_add _).symm
  | cons e es ih => rw [List.cons_append, allCalls, ih, allCalls, Nat.add_assoc]

theorem allCalls_reduceOption (es : List (Option Expr)) :
    p.allCalls es.reduceOption = p.elementCalls es := by
  induction es with
  | nil => rfl
  | cons e es ih =>
    cases e with
    | none => exact ih
    | some e => exact congrArg (p.calls e + ·) ih

theorem allCalls_keyParts (k : PropName) : p.allCalls (keyParts k) = p.keyCalls k := by
  cases k <;> rfl

theorem allCalls_calleeParts? {callee : Expr} (h : p.calleeParts? callee = some es) :
    p.allCalls es = if p.effects true callee then p.calls callee else 0 := by
  unfold calleeParts? at h
  split at h
  · next heffects =>
    cases h
    rw [Bool.not_eq_true'] at heffects
    rw [heffects]
    rfl
  · next heffects =>
    rw [Bool.not_eq_true', Bool.not_eq_false] at heffects
    rw [heffects]
    split at h
    · split at h
      · cases h
      · cases h
        exact congrArg _ (p.allCalls_keyParts _)
    · cases h
      rfl

theorem calls_parts {e : Expr} (h : p.parts? e = some es) : p.calls e = p.allCalls es := by
  cases e with
  | unary loc op e =>
    cases op with
    | delete => cases h
    | typeof => cases e <;> cases h <;> rfl
    | _ => cases h; rfl
  | binary loc op l r =>
    simp only [parts?] at h
    split at h
    · cases h
    · cases h
      rfl
  | template loc quasis es =>
    cases h
    rfl
  | array loc es =>
    simp only [parts?] at h
    split at h
    · cases h
    · cases h
      exact (p.allCalls_reduceOption es).symm
  | member loc optional o k =>
    simp only [parts?] at h
    split at h
    · cases h
      rw [calls, allCalls, p.allCalls_keyParts]
    · cases h
  | call loc optional pure callee args =>
    simp only [parts?] at h
    split at h
    · next hpure =>
      obtain ⟨parts, hparts, rfl⟩ := Option.map_eq_some_iff.mp h
      simp only [Bool.and_eq_true] at hpure
      rw [calls, hpure.1.1, p.allCalls_append, p.allCalls_calleeParts? hparts]
      simp
    · cases h
  | _ => cases h

end Purity

def Meaning.counting (p : Purity) : Meaning p Nat Bool where
  eval := p.count
  truthy := id
  nullish _ := false
  not := (!·)
  undefined := false
  same := (· == ·)
  bind _ _ _ := pure ()
  other _ := Behaviour.skip
  truthy_not _ := rfl
  eval_not _ e := (tally_bind _ 0 _ _ rfl).symm
  eval_negated loc op negated l r h := by
    refine (tally_bind (p.calls l + p.calls r) 0 _ _ ?_).symm
    cases op <;> cases h <;> rfl
  eval_and loc l r := by
    refine (tally_bind _ _ _ _ ?_).symm
    cases h : l.holds <;> simp [h, Purity.count, Expr.holds, tally_zero]
  eval_or loc l r := by
    refine (tally_bind _ _ _ _ ?_).symm
    cases h : l.holds <;> simp [h, Purity.count, Expr.holds, tally_zero]
  eval_nullish loc l r := (tally_bind _ 0 _ _ rfl).symm
  eval_conditional loc t c a := by
    refine (tally_bind _ _ _ _ ?_).symm
    cases h : t.holds <;> simp [h, Purity.count, Expr.holds]
  eval_sequence loc es h := (p.last_count h).symm
  eval_pure e h s := ⟨e.holds, by rw [Purity.count, from_tally, p.calls_eq_zero e h, Nat.add_zero]⟩
  eval_parts e es h := by
    rw [p.all_count, ← p.calls_parts h]
    exact tally_bind _ 0 _ _ rfl

end Laconic
