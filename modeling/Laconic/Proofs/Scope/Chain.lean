import Laconic.Proofs.Scope.Table

/-!
# Scopes around scopes

Scopes hang together by their parents.  What a scope is and what it stands in, its
`Frame`, never changes once the scope is there, and the scopes around a place are
a path to the outermost scope (`Chain`).

Where one is on the way through the events of a program does not depend on the
names in them: both runs over the events are at the same `Spot` after the same
events.

The names of function and class expressions, which give way to any other
declaration, come first in their scopes, and the outermost scope is not left before
the end.  `ScopeEvent.fits` says so of a list of events.
-/

namespace Laconic

variable {t u : ScopeTree} {p : Spot}

/-! ## Scopes that hang together -/

/-- What does not change of a scope once it is there. -/
structure Frame where
  kind : ScopeKind
  parent : Option Nat
  strict : Bool

/-- What does not change of a scope once it is there. -/
def Scope.frame (s : Scope) : Frame := ⟨s.kind, s.parent, s.strict⟩

namespace ScopeTree

variable {t u : ScopeTree}

def frame? (t : ScopeTree) (id : Nat) : Option Frame := t.scopes[id]?.map Scope.frame

def parent? (t : ScopeTree) (id : Nat) : Option Nat := (t.frame? id).bind (·.parent)

/-- Every scope of the first tree is in the second one. -/
def Extends (t u : ScopeTree) : Prop :=
  ∀ (id : Nat) (f : Frame), t.frame? id = some f → u.frame? id = some f

theorem Extends.refl (t : ScopeTree) : t.Extends t := fun _ _ h => h

theorem Extends.trans {v : ScopeTree} (h : t.Extends u) (h' : u.Extends v) : t.Extends v :=
  fun id f hf => h' id f (h id f hf)

theorem Extends.of_eq (h : ∀ id, u.frame? id = t.frame? id) : t.Extends u :=
  fun id _ hf => (h id).trans hf

theorem extends_modifySymbol (t : ScopeTree) (id : Nat) (f : Symbol → Symbol) :
    t.Extends (t.modifySymbol id f) := fun _ _ h => h

theorem isVarScope_eq (t : ScopeTree) (id : Nat) :
    t.isVarScope id = (t.frame? id).any (·.kind.isVarScope) := by
  unfold isVarScope frame?
  cases t.scopes[id]? with
  | none => rfl
  | some s => rfl

/-- Scopes from the inside out, each the parent of the one before it, up to the
outermost scope. -/
inductive Chain (t : ScopeTree) : List Nat → Prop
  | root {f : Frame} : t.frame? root = some f → f.parent = none → Chain t [root]
  | inner {id parent : Nat} {rest : List Nat} {f : Frame} :
      t.frame? id = some f → f.parent = some parent → parent < id →
      Chain t (parent :: rest) → Chain t (id :: parent :: rest)

namespace Chain

variable {t u : ScopeTree} {id : Nat} {rest : List Nat}
variable {path : List Nat}

theorem mono (h : t.Extends u) (hpath : t.Chain path) : u.Chain path := by
  induction hpath with
  | root hf hnone => exact .root (h _ _ hf) hnone
  | inner hf hparent hlt _ ih => exact .inner (h _ _ hf) hparent hlt ih

section

variable (h : t.Chain path)

include h

theorem ne_nil : path ≠ [] := by
  cases h <;> simp

theorem lt_size : ∀ id ∈ path, id < t.scopes.size := by
  have hsize : ∀ {id : Nat} {f : Frame}, t.frame? id = some f → id < t.scopes.size := by
    intro id f hf
    obtain ⟨s, hs, _⟩ := Option.map_eq_some_iff.mp hf
    exact (Array.getElem?_eq_some_iff.mp hs).1
  induction h with
  | root hf _ =>
    intro id hid
    rw [List.mem_singleton] at hid
    exact hid ▸ hsize hf
  | inner hf _ _ _ ih =>
    intro id hid
    rcases List.mem_cons.mp hid with rfl | hid
    · exact hsize hf
    · exact ih id hid

theorem getLast?_eq : path.getLast? = some ScopeTree.root := by
  induction h with
  | root _ _ => rfl
  | inner _ _ _ _ ih => simpa [List.getLast?_cons_cons] using ih

theorem root_mem : ScopeTree.root ∈ path :=
  List.mem_of_getLast? h.getLast?_eq

theorem eq_root_of_length (hlength : path.length = 1) : path = [ScopeTree.root] := by
  obtain ⟨id, rfl⟩ := List.length_eq_one_iff.mp hlength
  have hlast := h.getLast?_eq
  simpa using hlast

/-- The outermost scope has no parent. -/
theorem frame?_root : ∃ f, t.frame? ScopeTree.root = some f ∧ f.parent = none := by
  induction h with
  | root hf hnone => exact ⟨_, hf, hnone⟩
  | inner _ _ _ _ ih => exact ih

end

theorem tail (h : t.Chain (id :: rest)) (hrest : rest ≠ []) : t.Chain rest := by
  cases h with
  | root _ _ => exact absurd rfl hrest
  | inner _ _ _ h => exact h

/-- Scopes further out have smaller numbers. -/
theorem pairwise (h : t.Chain path) : path.Pairwise (· > ·) := by
  induction h with
  | root _ _ => simp
  | inner _ _ hlt _ ih =>
    rw [List.pairwise_cons]
    refine ⟨?_, ih⟩
    intro id hid
    rcases List.mem_cons.mp hid with rfl | hmem
    · exact hlt
    · exact Nat.lt_trans (List.rel_of_pairwise_cons ih hmem) hlt

theorem nodup (h : t.Chain path) : path.Nodup :=
  h.pairwise.imp fun h => Nat.ne_of_gt h

theorem parent_mem {pre post : List Nat} {scope : Nat} (h : t.Chain (pre ++ scope :: post)) :
    ∀ id ∈ pre, ∃ f parent, t.frame? id = some f ∧ f.parent = some parent
      ∧ parent ∈ pre ++ [scope] := by
  induction pre with
  | nil => simp
  | cons first pre ih =>
    intro id hid
    have htail : t.Chain (pre ++ scope :: post) := h.tail (by simp)
    rcases List.mem_cons.mp hid with rfl | hid
    · obtain ⟨next, rest, hnext⟩ := List.exists_cons_of_ne_nil htail.ne_nil
      rw [List.cons_append, hnext] at h
      cases h with
      | inner hf hparent _ _ =>
        refine ⟨_, _, hf, hparent, ?_⟩
        cases pre with
        | nil => simp_all
        | cons _ _ => simp_all
    · obtain ⟨f, parent, hf, hparent, hmem⟩ := ih htail id hid
      exact ⟨f, parent, hf, hparent, List.mem_cons_of_mem _ hmem⟩

theorem mem_of_parent (h : t.Chain path) {parent : Nat} (hid : id ∈ path)
    (hparent : t.parent? id = some parent) : parent ∈ path := by
  obtain ⟨f, hf, hnext⟩ := Option.bind_eq_some_iff.mp hparent
  induction h with
  | root hroot hnone =>
    cases List.mem_singleton.mp hid
    cases Option.mem_unique hroot hf
    rw [hnone] at hnext
    cases hnext
  | inner hfirst hsecond _ _ ih =>
    rcases List.mem_cons.mp hid with rfl | hid
    · cases Option.mem_unique hfirst hf
      cases Option.mem_unique hsecond hnext
      simp
    · exact List.mem_cons_of_mem _ (ih hid)

/-- A path comes to each of its scopes but the first from a scope inside it. -/
theorem exists_child (h : t.Chain (id :: rest)) {j : Nat} (hj : j ∈ rest) :
    ∃ child ∈ id :: rest, t.parent? child = some j := by
  generalize hpath : id :: rest = path at h
  induction h generalizing id rest with
  | root => cases hpath; cases hj
  | inner hf hparent _ _ ih =>
    cases hpath
    rcases List.mem_cons.mp hj with rfl | hj
    · exact ⟨_, List.mem_cons_self, Option.bind_eq_some_iff.mpr ⟨_, hf, hparent⟩⟩
    · obtain ⟨child, hchild, h⟩ := ih hj rfl
      exact ⟨child, List.mem_cons_of_mem _ hchild, h⟩

end Chain

/-- Each scope but the outermost one has a parent that was made before it. -/
def Hangs (t : ScopeTree) : Prop :=
  ∀ (id : Nat) (f : Frame), t.frame? id = some f →
    id = root ∧ f.parent = none ∨ ∃ parent < id, f.parent = some parent

/-! ## Paths are ancestors -/

section Ancestors

variable {t : ScopeTree} {path : List Nat}

theorem ancestorsWithin_of_chain (h : t.Chain path) {bound : Nat}
    (hbound : path.headD root < bound) : t.ancestorsWithin bound (path.headD root) = path := by
  induction h generalizing bound with
  | root hf hnone =>
    obtain ⟨s, hs, rfl⟩ := Option.map_eq_some_iff.mp hf
    have hparent : s.parent = none := hnone
    obtain ⟨bound, rfl⟩ := Nat.exists_eq_add_one_of_ne_zero (Nat.ne_zero_of_lt hbound)
    simp [ancestorsWithin, hs, hparent]
  | @inner id parent rest f hf hparent hlt _ ih =>
    obtain ⟨s, hs, rfl⟩ := Option.map_eq_some_iff.mp hf
    have hparent : s.parent = some parent := hparent
    obtain ⟨bound, rfl⟩ := Nat.exists_eq_add_one_of_ne_zero (Nat.ne_zero_of_lt hbound)
    have hinner : t.ancestorsWithin bound parent = parent :: rest := by
      apply ih
      simp only [List.headD_cons] at hbound ⊢
      omega
    simp [ancestorsWithin, hs, hparent, hinner]

theorem ancestors_of_chain (h : t.Chain path) : t.ancestors (path.headD root) = path := by
  apply ancestorsWithin_of_chain h
  obtain ⟨id, rest, rfl⟩ := List.exists_cons_of_ne_nil h.ne_nil
  exact h.lt_size id List.mem_cons_self

theorem ancestorsWithin_congr {u : ScopeTree} (h : ∀ id, u.frame? id = t.frame? id)
    (bound id : Nat) :
    u.ancestorsWithin bound id = t.ancestorsWithin bound id := by
  have hparent : ∀ (v : ScopeTree) bound id, v.ancestorsWithin (bound + 1) id
      = match v.frame? id with
        | some f => id :: (f.parent.map (v.ancestorsWithin bound)).getD []
        | none => [] := by
    intro v bound id
    rw [ancestorsWithin, frame?]
    cases v.scopes[id]? with
    | none => rfl
    | some s => cases hs : s.parent <;> simp [Scope.frame, hs]
  induction bound generalizing id with
  | zero => rfl
  | succ bound ih => rw [hparent, hparent, h, funext ih]

theorem exists_chain (h : t.Hangs) {id : Nat} (hlt : id < t.scopes.size) :
    ∃ rest, t.ancestors id = id :: rest ∧ t.Chain (id :: rest) := by
  suffices ∃ rest, t.Chain (id :: rest) by
    obtain ⟨rest, hchain⟩ := this
    exact ⟨rest, ancestors_of_chain hchain, hchain⟩
  induction id using Nat.strongRecOn with
  | ind id ih =>
    have hf : t.frame? id = some t.scopes[id].frame := by
      simp [frame?, Array.getElem?_eq_getElem hlt]
    rcases h id _ hf with ⟨rfl, hnone⟩ | ⟨parent, hless, hparent⟩
    · exact ⟨[], .root hf hnone⟩
    · obtain ⟨rest, hchain⟩ := ih parent hless (Nat.lt_trans hless hlt)
      exact ⟨parent :: rest, .inner hf hparent hless hchain⟩

end Ancestors

end ScopeTree

/-! ## Events in order -/

/-- Whether events can stand inside a number of open scopes.  The outermost scope
is not closed, and a name that any other declaration takes the place of is only
declared right at the start of a scope (`fresh`). -/
def ScopeEvent.fits : Nat → Bool → List ScopeEvent → Bool
  | _, _, [] => true
  | depth, _, .enter .. :: rest => fits (depth + 1) true rest
  | depth, _, .leave :: rest => 1 < depth && fits (depth - 1) false rest
  | depth, fresh, .declare _ kind _ _ :: rest =>
    (kind != .global && kind != .arguments && (fresh || !kind.isShadowable))
      && fits depth false rest
  | depth, _, .refer .. :: rest => fits depth false rest
  | depth, _, .this :: rest => fits depth false rest

/-- Whether names are exported in the outermost scope only, inside a number of open
scopes. -/
def ScopeEvent.exportsOutermost : Nat → List ScopeEvent → Bool
  | _, [] => true
  | depth, .enter .. :: rest => exportsOutermost (depth + 1) rest
  | depth, .leave :: rest => exportsOutermost (depth - 1) rest
  | depth, .declare _ _ exported _ :: rest =>
    (!exported || depth == 1) && exportsOutermost depth rest
  | depth, .refer _ _ exported :: rest => (!exported || depth == 1) && exportsOutermost depth rest
  | depth, .this :: rest => exportsOutermost depth rest

/-! ## On the way through the events -/

/-- Where one is on the way through the events of a program: the scopes around,
from the inside out, and the number of the next scope. -/
structure Spot where
  stack : List Nat := []
  next : Nat := 0

/-- Where a run stands after an event. -/
def Spot.step (p : Spot) : ScopeEvent → Spot
  | .enter .. => ⟨p.next :: p.stack, p.next + 1⟩
  | .leave => ⟨p.stack.tail, p.next⟩
  | _ => p

def ScopeTree.Begins (t : ScopeTree) (p : Spot) : ScopeEvent → Prop
  | .enter kind .. => ∃ f, t.frame? p.next = some f ∧ f.kind = kind ∧ f.parent = p.stack.head?
  | _ => True

theorem ScopeTree.Begins.mono {e : ScopeEvent} (h : t.Begins p e) (hextends : t.Extends u) :
    u.Begins p e := by
  cases e with
  | enter kind loc strict =>
    obtain ⟨f, hf, hkind, hparent⟩ := h
    exact ⟨f, hextends _ _ hf, hkind, hparent⟩
  | _ => trivial

def ScopeTree.Builds (t : ScopeTree) : Spot → List ScopeEvent → Prop
  | _, [] => True
  | p, e :: rest => t.Begins p e ∧ t.Builds (p.step e) rest

theorem ScopeTree.Builds.mono (hextends : t.Extends u) {events : List ScopeEvent}
    (h : t.Builds p events) : u.Builds p events := by
  induction events generalizing p with
  | nil => trivial
  | cons e rest ih => exact ⟨h.1.mono hextends, ih h.2⟩

end Laconic
