import Laconic.Tree.Access
import Mathlib.Control.Lawful

/-!
# What statements do

The effect of running a statement is a relation between the state before it, the way it
ends, and the state after it.  A statement may also not end, so this is no function.  The
relations are put together in sequence, after the evaluation of an expression, and in
loops; the laws of these operations carry the proofs about statements.
-/

namespace Laconic

/-- How running a statement ends. -/
inductive Completion (V : Type) where
  | normal
  | return (value : V)
  | throw (value : V)
  | break (label : Option String)
  | continue (label : Option String)

/-- Changes a state and gives a result, or throws a value. -/
abbrev Evaluating (σ V : Type) : Type → Type := ExceptT V (StateM σ)

/-- The result of an evaluation from a state, and the state after it. -/
def Evaluating.from {σ V α : Type} (m : Evaluating σ V α) (s : σ) : Except V α × σ :=
  (m.run.run s).run

/-- How running something from a state can end, and in which state. -/
abbrev Behaviour (σ V : Type) : Type := σ → Completion V → σ → Prop

namespace Behaviour

variable {σ V α β : Type}

/-- Ends at once. -/
def ends (c : Completion V) : Behaviour σ V := fun s c' s' => c' = c ∧ s' = s

/-- Does nothing. -/
def skip : Behaviour σ V := ends .normal

/-- One after the other, if the first one ends normally. -/
def seq (a b : Behaviour σ V) : Behaviour σ V := fun s c s' =>
  (∃ s₁, a s .normal s₁ ∧ b s₁ c s') ∨ c ≠ .normal ∧ a s c s'

/-- What is done with the result of an evaluation, unless that throws. -/
def evaluated (m : Evaluating σ V α) (k : α → Behaviour σ V) : Behaviour σ V := fun s =>
  match m.from s with
  | (.ok a, s₁) => k a s₁
  | (.error v, s₁) => ends (.throw v) s₁

/-! ## Jumps -/

/-- A statement with a label, which a jump may leave. -/
def labeled (label : String) (a : Behaviour σ V) : Behaviour σ V := fun s c s' =>
  c = .normal ∧ a s (.break (some label)) s' ∨ c ≠ .break (some label) ∧ a s c s'

/-- The clauses of a `switch`, which a jump may leave. -/
def switched (a : Behaviour σ V) : Behaviour σ V := fun s c s' =>
  c = .normal ∧ a s (.break none) s' ∨ c ≠ .break none ∧ a s c s'

end Behaviour

/-- Whether a loop with some labels goes on after its body has ended so. -/
def Completion.goesOn {V : Type} (labels : List String) : Completion V → Bool
  | .normal | .continue none => true
  | .continue (some label) => labels.contains label
  | _ => false

/-- How a loop ends after its body has ended so. -/
def Completion.afterLoop {V : Type} : Completion V → Completion V
  | .break none => .normal
  | c => c

/-- The rounds of a loop with some labels. -/
inductive Rounds {σ V : Type} (labels : List String) (test : Evaluating σ V Bool)
    (update : Evaluating σ V Unit) (body : Behaviour σ V) : Behaviour σ V where
  | stop {s s' : σ} (ht : test.from s = (.ok false, s')) :
    Rounds labels test update body s .normal s'
  | testThrows {s s' : σ} {v : V} (ht : test.from s = (.error v, s')) :
    Rounds labels test update body s (.throw v) s'
  | leave {s s₁ s' : σ} {c : Completion V} (ht : test.from s = (.ok true, s₁))
    (hbody : body s₁ c s') (hc : c.goesOn labels = false) :
    Rounds labels test update body s c.afterLoop s'
  | updateThrows {s s₁ s₂ s' : σ} {c : Completion V} {v : V}
    (ht : test.from s = (.ok true, s₁)) (hbody : body s₁ c s₂)
    (hc : c.goesOn labels = true) (hu : update.from s₂ = (.error v, s')) :
    Rounds labels test update body s (.throw v) s'
  | next {s s₁ s₂ s₃ s' : σ} {c c' : Completion V}
    (ht : test.from s = (.ok true, s₁)) (hbody : body s₁ c s₂)
    (hc : c.goesOn labels = true) (hu : update.from s₂ = (.ok (), s₃))
    (hnext : Rounds labels test update body s₃ c' s') : Rounds labels test update body s c' s'

/-! ## Laws -/

theorem Evaluating.ext {σ V α : Type} {m m' : Evaluating σ V α} (h : ∀ s, m.from s = m'.from s) :
    m = m' :=
  funext h

theorem Evaluating.from_bind {σ V α β : Type} (m : Evaluating σ V α) (f : α → Evaluating σ V β)
    (s : σ) : Evaluating.from (m >>= f) s = match m.from s with
      | (.ok x, s₁) => (f x).from s₁
      | (.error v, s₁) => (.error v, s₁) := by
  unfold Evaluating.from ExceptT.run StateT.run Id.run
  simp only [bind, ExceptT.bind, ExceptT.mk, StateT.bind, ExceptT.bindCont]
  rcases m s with ⟨v | x, s₁⟩ <;> rfl

namespace Behaviour

variable {σ V α β : Type}

theorem ext {a b : Behaviour σ V} (h : ∀ s c s', a s c s' ↔ b s c s') : a = b := by
  funext s c s'
  exact propext (h s c s')

@[simp] theorem skip_seq (a : Behaviour σ V) : seq skip a = a := by
  refine ext fun s c s' => ⟨?_, fun h => .inl ⟨s, ⟨rfl, rfl⟩, h⟩⟩
  rintro (⟨s₁, ⟨-, rfl⟩, h⟩ | ⟨hc, hnormal, -⟩)
  · exact h
  · exact absurd hnormal hc

@[simp] theorem seq_skip (a : Behaviour σ V) : seq a skip = a := by
  refine ext fun s c s' => ⟨?_, fun h => ?_⟩
  · rintro (⟨s₁, h, rfl, rfl⟩ | ⟨-, h⟩)
    · exact h
    · exact h
  · by_cases hc : c = .normal
    · subst hc
      exact .inl ⟨s', h, rfl, rfl⟩
    · exact .inr ⟨hc, h⟩

theorem seq_assoc (a b c : Behaviour σ V) : seq (seq a b) c = seq a (seq b c) := by
  refine ext fun s k s' => ⟨?_, ?_⟩
  · rintro (⟨s₂, ⟨s₁, ha, hb⟩ | ⟨hk, -⟩, hc⟩ | ⟨hk, ⟨s₁, ha, hb⟩ | ⟨-, ha⟩⟩)
    · exact .inl ⟨s₁, ha, .inl ⟨s₂, hb, hc⟩⟩
    · exact absurd rfl hk
    · exact .inl ⟨s₁, ha, .inr ⟨hk, hb⟩⟩
    · exact .inr ⟨hk, ha⟩
  · rintro (⟨s₁, ha, ⟨s₂, hb, hc⟩ | ⟨hk, hb⟩⟩ | ⟨hk, ha⟩)
    · exact .inl ⟨s₂, .inl ⟨s₁, ha, hb⟩, hc⟩
    · exact .inr ⟨hk, .inl ⟨s₁, ha, hb⟩⟩
    · exact .inr ⟨hk, .inr ⟨hk, ha⟩⟩

theorem ends_seq {c : Completion V} (hc : c ≠ .normal) (a : Behaviour σ V) :
    seq (ends c) a = ends c := by
  refine ext fun s k s' => ⟨?_, ?_⟩
  · rintro (⟨s₁, ⟨hnormal, -⟩, -⟩ | ⟨-, h⟩)
    · exact absurd hnormal.symm hc
    · exact h
  · rintro ⟨rfl, rfl⟩
    exact .inr ⟨hc, rfl, rfl⟩

theorem evaluated_ok {m : Evaluating σ V α} {s s₁ : σ} {x : α} (h : m.from s = (.ok x, s₁))
    (k : α → Behaviour σ V) : evaluated m k s = k x s₁ := by
  unfold evaluated
  rw [h]

theorem evaluated_error {m : Evaluating σ V α} {s s₁ : σ} {v : V} (h : m.from s = (.error v, s₁))
    (k : α → Behaviour σ V) : evaluated m k s = ends (.throw v) s₁ := by
  unfold evaluated
  rw [h]

@[simp] theorem evaluated_pure (x : α) (k : α → Behaviour σ V) : evaluated (pure x) k = k x := rfl

@[simp] theorem evaluated_bind (m : Evaluating σ V α) (f : α → Evaluating σ V β)
    (k : β → Behaviour σ V) : evaluated (m >>= f) k = evaluated m fun x => evaluated (f x) k := by
  funext s
  have hbind := Evaluating.from_bind m f s
  rcases h : m.from s with ⟨v | x, s₁⟩
  · rw [h] at hbind
    rw [evaluated_error hbind, evaluated_error h]
  · rw [h] at hbind
    rw [evaluated_ok h]
    unfold evaluated
    rw [hbind]

/-- What comes after an evaluation comes after what is done with its result. -/
theorem seq_evaluated (m : Evaluating σ V α) (k : α → Behaviour σ V) (a : Behaviour σ V) :
    seq (evaluated m k) a = evaluated m fun x => seq (k x) a := by
  funext s c s'
  rcases h : m.from s with ⟨v | x, s₁⟩
  · have hends : seq (evaluated m k) a s = seq (ends (.throw v)) a s₁ := by
      unfold seq
      rw [evaluated_error h]
    rw [hends, ends_seq (c := .throw v) nofun, evaluated_error h]
  · rw [evaluated_ok h]
    unfold seq
    rw [evaluated_ok h]

theorem evaluated_const (m : Evaluating σ V α) (a : Behaviour σ V) :
    (evaluated m fun _ => a) = seq (evaluated m fun _ => skip) a := by
  rw [seq_evaluated, skip_seq]

end Behaviour

end Laconic
