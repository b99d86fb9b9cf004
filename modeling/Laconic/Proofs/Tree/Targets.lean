import Laconic.Tree.Access

/-!
# Where jumps can lead

A `break` without a label leaves the loop or `switch` around it, a `continue` without one goes
on with the loop around it.  With a label they do so with the statement that bears the label,
and `continue` needs a loop there.  What is around a function or a static block is out of reach
in it.

`Targets` is all that matters of the surroundings of a jump; `Targets.Le` compares them.
-/

namespace Laconic

def Stmt.isLoop : Stmt → Bool
  | .for .. | .forIn .. | .forOf .. | .while .. | .doWhile .. => true
  | _ => false

/-- What is around a place in the same function. -/
structure Targets where
  /-- Whether a loop is. -/
  loop : Bool := false
  /-- Whether a `switch` is. -/
  switch : Bool := false
  /-- The labels; the flag says that the statement with the label is a loop. -/
  label : String → Option Bool := fun _ => none

namespace Targets

/-- The surroundings of the body of a loop. -/
def inLoop (t : Targets) : Targets := { t with loop := true }

/-- The surroundings of the clauses of a `switch`. -/
def inSwitch (t : Targets) : Targets := { t with switch := true }

/-- The surroundings of a statement with a label. -/
def labeled (t : Targets) (name : String) (isLoop : Bool) : Targets :=
  { t with label := fun other => if other = name then some isLoop else t.label other }

/-- A `break`, with or without a label, has a target. -/
def MayBreak (t : Targets) : Option Ident → Prop
  | none => t.loop = true ∨ t.switch = true
  | some label => ∃ isLoop, t.label label.name = some isLoop

/-- A `continue`, with or without a label, has a target. -/
def MayContinue (t : Targets) : Option Ident → Prop
  | none => t.loop = true
  | some label => t.label label.name = some true

/-- Every jump that has a target in `t` has one in `t'`. -/
structure Le (t t' : Targets) : Prop where
  breaks : ∀ label, t.MayBreak label → t'.MayBreak label
  continues : ∀ label, t.MayContinue label → t'.MayContinue label

namespace Le

variable {t t' : Targets}

theorem inLoop (h : t.Le t') : t.inLoop.Le t'.inLoop where
  breaks
    | none, _ => .inl rfl
    | some label, hbreak => h.breaks (some label) hbreak
  continues
    | none, _ => rfl
    | some label, hcontinue => h.continues (some label) hcontinue

theorem inSwitch (h : t.Le t') : t.inSwitch.Le t'.inSwitch where
  breaks
    | none, _ => .inr rfl
    | some label, hbreak => h.breaks (some label) hbreak
  continues
    | none, hcontinue => h.continues none hcontinue
    | some label, hcontinue => h.continues (some label) hcontinue

theorem labeled (h : t.Le t') (name : String) (isLoop : Bool) :
    (t.labeled name isLoop).Le (t'.labeled name isLoop) where
  breaks
    | none, hbreak => h.breaks none hbreak
    | some label, hbreak => by
      simp only [MayBreak, Targets.labeled] at hbreak ⊢
      split
      · exact ⟨isLoop, rfl⟩
      · next hother =>
        rw [if_neg hother] at hbreak
        exact h.breaks (some label) hbreak
  continues
    | none, hcontinue => h.continues none hcontinue
    | some label, hcontinue => by
      simp only [MayContinue, Targets.labeled] at hcontinue ⊢
      split
      · next hname => rwa [if_pos hname] at hcontinue
      · next hother =>
        rw [if_neg hother] at hcontinue
        exact h.continues (some label) hcontinue

theorem labeled_loop (t : Targets) (name : String) (isLoop : Bool) :
    (t.labeled name isLoop).Le (t.labeled name true) where
  breaks
    | none, hbreak => hbreak
    | some label, hbreak => by
      simp only [MayBreak, Targets.labeled] at hbreak ⊢
      split
      · exact ⟨true, rfl⟩
      · next hother => rwa [if_neg hother] at hbreak
  continues
    | none, hcontinue => hcontinue
    | some label, hcontinue => by
      simp only [MayContinue, Targets.labeled] at hcontinue ⊢
      split
      · rfl
      · next hother => rwa [if_neg hother] at hcontinue

theorem inSwitch_inLoop (t : Targets) : t.inSwitch.inLoop.Le t.inLoop where
  breaks
    | none, _ => .inl rfl
    | some _, hbreak => hbreak
  continues
    | none, _ => rfl
    | some _, hcontinue => hcontinue

end Le

end Targets

end Laconic
