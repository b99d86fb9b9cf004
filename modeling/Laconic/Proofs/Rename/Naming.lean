import Laconic.Proofs.Rename.Fresh
import Laconic.Proofs.Scope.Resolve
import Laconic.Rename.Variables

/-!
# Names of scopes

Scopes are named one after the other, each scope after the ones around it.  A
symbol gets its new name when its own scope is named, and no other scope touches
it.  So the names that are taken in a scope are final when the scope is named, and
its new names differ from them in the end as they do at that moment.
-/

namespace Laconic.Naming

variable {eligible : Eligible} {id : Nat} {t : ScopeTree} {a : Alphabet}

/-! ## Trees with other names -/

def newName? (t : ScopeTree) (i : Nat) : Option String := t.symbols[i]?.bind (·.newName)

def unnamed (s : Symbol) : Symbol := { s with newName := none }

/-- Trees that differ in the new names of some symbols only. -/
structure RenamesOnly (own : Nat → Prop) (t u : ScopeTree) : Prop where
  scopes : u.scopes = t.scopes
  globals : u.globals = t.globals
  symbol : ∀ i : Nat, u.symbols[i]?.map unnamed = t.symbols[i]?.map unnamed
  other : ∀ i, ¬ own i → u.symbols[i]? = t.symbols[i]?

namespace RenamesOnly

variable {own own' : Nat → Prop} {t u v : ScopeTree}

theorem refl (own : Nat → Prop) (t : ScopeTree) : RenamesOnly own t t :=
  ⟨rfl, rfl, fun _ => rfl, fun _ _ => rfl⟩

variable (h : RenamesOnly own t u)

include h

theorem trans (h' : RenamesOnly own u v) : RenamesOnly own t v where
  scopes := h'.scopes.trans h.scopes
  globals := h'.globals.trans h.globals
  symbol i := (h'.symbol i).trans (h.symbol i)
  other i hi := (h'.other i hi).trans (h.other i hi)

theorem mono (hsub : ∀ i, own i → own' i) : RenamesOnly own' t u :=
  { h with other := fun i hi => h.other i fun hown => hi (hsub i hown) }

theorem map_view {α : Type} (view : Symbol → α) (hview : ∀ s, view (unnamed s) = view s) (i : Nat) :
    u.symbols[i]?.map view = t.symbols[i]?.map view := by
  have hsame := congrArg (Option.map view) (h.symbol i)
  simpa only [Option.map_map, Function.comp_def, hview] using hsame

theorem alike : t.Alike u where
  frame id := by rw [ScopeTree.frame?, h.scopes]; rfl
  home := h.map_view Symbol.home fun _ => rfl
  names id := by rw [h.scopes]
  enclosed id := by rw [h.scopes]
  globals := h.globals

theorem newName? {i : Nat} (hi : ¬ own i) : newName? u i = newName? t i := by
  rw [Naming.newName?, h.other i hi]
  rfl

end RenamesOnly

theorem renamesOnly_rename (t : ScopeTree) (id : Nat) (name : String) :
    RenamesOnly (· = id) t (rename t id name) where
  scopes := rfl
  globals := rfl
  symbol := ScopeTree.map_getElem?_modifySymbol t id _ unnamed fun _ => rfl
  other i hi := by
    rw [rename, ScopeTree.getElem?_symbols_modifySymbol, if_neg fun h => hi h.symm]

theorem newName?_rename (t : ScopeTree) {s : Symbol} (hs : t.symbols[id]? = some s)
    (name : String) :
    newName? (rename t id name) id = some name := by
  rw [newName?, rename, ScopeTree.getElem?_symbols_modifySymbol, if_pos rfl, hs]
  rfl

/-! ## One scope -/

/-- What is known while the symbols of a scope get new names: `taken` are the names
that they may not get, `done` those that have their names. -/
structure Named (t : ScopeTree) (taken : List String) (done : List Nat) (s : State) : Prop where
  only : RenamesOnly (· ∈ done) t s.tree
  subset : ∀ x ∈ taken, x ∈ s.taken
  name : ∀ i ∈ done, ∃ x, newName? s.tree i = some x ∧ x ∈ s.taken ∧ x ∉ taken
  differ : ∀ i ∈ done, ∀ j ∈ done, i ≠ j → newName? s.tree i ≠ newName? s.tree j

namespace Named

variable {a : Alphabet} {t : ScopeTree} {taken : List String} {done : List Nat} {s : State}

theorem step (ha : a.Complete) (h : Named t taken done s) {old : Symbol}
    (hold : t.symbols[id]? = some old) (hnone : old.newName = none) :
    Named t taken (id :: done) (renameOwn a s id) := by
  by_cases hdone : id ∈ done
  · -- the symbol has its name already
    obtain ⟨x, hx, _⟩ := h.name id hdone
    obtain ⟨old', hs, hname⟩ := Option.bind_eq_some_iff.mp hx
    have hsame : renameOwn a s id = s := by
      unfold renameOwn
      rw [hs]
      simp [hname]
    rw [hsame]
    have hmem : ∀ i ∈ id :: done, i ∈ done := by
      intro i hi
      rcases List.mem_cons.mp hi with rfl | hi
      · exact hdone
      · exact hi
    exact {
      only := h.only.mono fun i hi => List.mem_cons_of_mem _ hi
      subset := h.subset
      name := fun i hi => h.name i (hmem i hi)
      differ := fun i hi j hj => h.differ i (hmem i hi) j (hmem j hj) }
  · have hs : s.tree.symbols[id]? = some old := (h.only.other id hdone).trans hold
    have hstep : renameOwn a s id
        = { tree := rename s.tree id (a.fresh s.taken s.next).1
            taken := (a.fresh s.taken s.next).1 :: s.taken
            next := (a.fresh s.taken s.next).2 } := by
      unfold renameOwn
      rw [hs]
      simp [hnone]
    obtain ⟨_, hfresh⟩ := Alphabet.fresh_spec ha s.taken s.next
    generalize a.fresh s.taken s.next = new at hstep hfresh
    have hrename := renamesOnly_rename s.tree id new.1
    have hnew := newName?_rename s.tree hs new.1
    have holder : ∀ i ∈ done, newName? (rename s.tree id new.1) i = newName? s.tree i := by
      intro i hi
      refine hrename.newName? ?_
      rintro rfl
      exact hdone hi
    have hne : ∀ i ∈ done, newName? (rename s.tree id new.1) i ≠ some new.1 := by
      intro i hi heq
      obtain ⟨x, hx, hmem, _⟩ := h.name i hi
      rw [holder i hi, hx] at heq
      cases heq
      exact hfresh hmem
    rw [hstep]
    exact {
      only := by
        refine (h.only.mono fun i hi => List.mem_cons_of_mem _ hi).trans (hrename.mono ?_)
        rintro i rfl
        exact List.mem_cons_self
      subset := fun x hx => List.mem_cons_of_mem _ (h.subset x hx)
      name := by
        intro i hi
        rcases List.mem_cons.mp hi with rfl | hi
        · exact ⟨new.1, hnew, List.mem_cons_self, fun hmem => hfresh (h.subset _ hmem)⟩
        · obtain ⟨x, hx, hmem, hnot⟩ := h.name i hi
          exact ⟨x, (holder i hi).trans hx, List.mem_cons_of_mem _ hmem, hnot⟩
      differ := by
        intro i hi j hj hij
        rcases List.mem_cons.mp hi with hid | hidone
        · rcases List.mem_cons.mp hj with hjd | hjdone
          · exact absurd (hid.trans hjd.symm) hij
          · rw [hid, hnew]
            exact (hne j hjdone).symm
        · rcases List.mem_cons.mp hj with hjd | hjdone
          · rw [hjd, hnew]
            exact hne i hidone
          · rw [holder i hidone, holder j hjdone]
            exact h.differ i hidone j hjdone hij }

theorem foldl (ha : a.Complete) (h : Named t taken done s) (own : List Nat)
    (hown : ∀ id ∈ own, ∃ old, t.symbols[id]? = some old ∧ old.newName = none) :
    ∃ done', (∀ i, i ∈ done' ↔ i ∈ own ∨ i ∈ done)
      ∧ Named t taken done' (own.foldl (renameOwn a) s) := by
  induction own generalizing done s with
  | nil => exact ⟨done, by simp, h⟩
  | cons id rest ih =>
    obtain ⟨old, hold, hnone⟩ := hown id List.mem_cons_self
    obtain ⟨done', hmem, hrest⟩ := ih (h.step ha hold hnone)
      fun i hi => hown i (List.mem_cons_of_mem _ hi)
    refine ⟨done', ?_, hrest⟩
    intro i
    rw [hmem, List.mem_cons, List.mem_cons]
    tauto

end Named

/-- The symbols of a scope that get new names. -/
def own (eligible : Eligible) (t : ScopeTree) (id : Nat) : List Nat :=
  match t.scopes[id]? with
  | none => []
  | some s => (s.names.map (·.2)).filter (isEligible eligible)

theorem mem_own {i : Nat} :
    i ∈ own eligible t id ↔
      ∃ s, t.scopes[id]? = some s ∧ i ∈ s.names.map (·.2) ∧ isEligible eligible i = true := by
  unfold own
  cases t.scopes[id]? with
  | none => simp
  | some s => simp [List.mem_filter]

theorem renameCached_nil (t : ScopeTree) (ids : List Nat) : renameCached [] t ids = t := by
  have hstep : ∀ id, cachedName? [] t id = none := by
    intro id
    unfold cachedName?
    cases t.symbols[id]? <;> rfl
  induction ids with
  | nil => rfl
  | cons id rest ih =>
    unfold renameCached at ih ⊢
    rw [List.foldl_cons, hstep]
    exact ih

/-- The new names of a scope differ from each other, from the names that are taken
in the scope, and from the reserved names. -/
theorem renameScope_spec (ha : a.Complete) (o : RenameOptions) (eligible : Eligible)
    {s : Scope} (hs : t.scopes[id]? = some s)
    (hown : ∀ i ∈ own eligible t id, ∃ old, t.symbols[i]? = some old ∧ old.newName = none) :
    let u := renameScope o [] a eligible t id
    RenamesOnly (· ∈ own eligible t id) t u
      ∧ (∀ i ∈ own eligible t id, ∃ x, newName? u i = some x
        ∧ x ∉ takenNames o [] t eligible id s ∧ x ∉ o.reserved)
      ∧ ∀ i ∈ own eligible t id, ∀ j ∈ own eligible t id, i ≠ j → newName? u i ≠ newName? u j := by
  intro u
  have hmem : own eligible t id = (s.names.map (·.2)).filter (isEligible eligible) := by
    simp [own, hs]
  have hu : u = ((own eligible t id).foldl (renameOwn a)
      { tree := t, taken := takenNames o [] t eligible id s ++ o.reserved }).tree := by
    simp only [u, renameScope, hs, renameCached_nil, ite_self, hmem]
  have hstart : Named t (takenNames o [] t eligible id s ++ o.reserved) []
      { tree := t, taken := takenNames o [] t eligible id s ++ o.reserved } :=
    ⟨.refl _ t, fun _ hx => hx, by simp, by simp⟩
  obtain ⟨done, hdone, hnamed⟩ := hstart.foldl ha (own eligible t id) hown
  simp only [List.not_mem_nil, or_false] at hdone
  rw [hu]
  refine ⟨hnamed.only.mono fun i hi => (hdone i).mp hi, ?_, ?_⟩
  · intro i hi
    obtain ⟨x, hx, _, hnot⟩ := hnamed.name i ((hdone i).mpr hi)
    rw [List.mem_append, not_or] at hnot
    exact ⟨x, hx, hnot⟩
  · intro i hi j hj
    exact hnamed.differ i ((hdone i).mpr hi) j ((hdone j).mpr hj)

/-! ## All scopes -/

/-- The tree after some of the scopes have been named. -/
def stage (o : RenameOptions) (a : Alphabet) (eligible : Eligible) (t : ScopeTree) (n : Nat) :
    ScopeTree :=
  (List.range n).foldl (renameScope o [] a eligible) t

theorem stage_succ (o : RenameOptions) (a : Alphabet) (eligible : Eligible) (t : ScopeTree)
    (n : Nat) :
    stage o a eligible t (n + 1) = renameScope o [] a eligible (stage o a eligible t n) n := by
  rw [stage, List.range_succ, List.foldl_append]
  rfl

/-- No symbol has a new name yet, and each belongs to one scope. -/
structure Ready (eligible : Eligible) (t : ScopeTree) : Prop where
  none : ∀ (i : Nat) (s : Symbol), t.symbols[i]? = some s → s.newName = none
  exists_symbol : ∀ id, ∀ i ∈ own eligible t id, ∃ s, t.symbols[i]? = some s
  unique : ∀ id id' i, i ∈ own eligible t id → i ∈ own eligible t id' → id = id'

section Stages

variable {a : Alphabet} {eligible : Eligible} {t : ScopeTree}

theorem own_eq (eligible : Eligible) {own' : Nat → Prop} {u : ScopeTree}
    (h : RenamesOnly own' t u) (id : Nat) : own eligible u id = own eligible t id := by
  unfold own
  rw [h.scopes]

theorem stage_only (ha : a.Complete) (o : RenameOptions) (h : Ready eligible t) (n : Nat) :
    RenamesOnly (fun i => ∃ id < n, i ∈ own eligible t id) t (stage o a eligible t n)
      ∧ RenamesOnly (· ∈ own eligible t n) (stage o a eligible t n)
        (stage o a eligible t (n + 1)) := by
  have hnext : ∀ n, RenamesOnly (fun i => ∃ id < n, i ∈ own eligible t id) t
      (stage o a eligible t n) → RenamesOnly (· ∈ own eligible t n) (stage o a eligible t n)
        (stage o a eligible t (n + 1)) := by
    intro n hbefore
    rw [stage_succ]
    cases hs : (stage o a eligible t n).scopes[n]? with
    | none =>
      have hsame : renameScope o [] a eligible (stage o a eligible t n) n
          = stage o a eligible t n := by simp [renameScope, hs]
      rw [hsame]
      exact .refl _ _
    | some s =>
      have hown := own_eq eligible hbefore n
      obtain ⟨honly, _⟩ := renameScope_spec ha o eligible hs fun i hi => by
        rw [hown] at hi
        obtain ⟨old, hold⟩ := h.exists_symbol n i hi
        refine ⟨old, ?_, h.none i old hold⟩
        rw [hbefore.other i ?_, hold]
        rintro ⟨id, hlt, hid⟩
        exact absurd (h.unique id n i hid hi) (Nat.ne_of_lt hlt)
      rwa [hown] at honly
  have hall : ∀ n, RenamesOnly (fun i => ∃ id < n, i ∈ own eligible t id) t
      (stage o a eligible t n) := by
    intro n
    induction n with
    | zero => exact .refl _ t
    | succ n ih =>
      refine (ih.mono ?_).trans ((hnext n ih).mono ?_)
      · rintro i ⟨id, hlt, hi⟩
        exact ⟨id, by omega, hi⟩
      · intro i hi
        exact ⟨n, by omega, hi⟩
  exact ⟨hall n, hnext n (hall n)⟩

theorem stage_later (ha : a.Complete) (o : RenameOptions) (h : Ready eligible t) {n m : Nat}
    (hle : n ≤ m) : RenamesOnly (fun i => ∃ id, n ≤ id ∧ i ∈ own eligible t id)
      (stage o a eligible t n) (stage o a eligible t m) := by
  induction m, hle using Nat.le_induction with
  | base => exact .refl _ _
  | succ m hle ih =>
    refine ih.trans ((stage_only ha o h m).2.mono ?_)
    intro i hi
    exact ⟨m, hle, hi⟩

end Stages

/-- What the names of a tree are when all scopes have been named. -/
structure Outcome (o : RenameOptions) (eligible : Eligible) (t u : ScopeTree) : Prop where
  only : RenamesOnly (fun i => ∃ id, i ∈ own eligible t id) t u
  name : ∀ id, ∀ i ∈ own eligible t id, ∃ x, newName? u i = some x ∧ x ∉ o.reserved
  differ : ∀ id, ∀ i ∈ own eligible t id, ∀ j ∈ own eligible t id, i ≠ j →
    newName? u i ≠ newName? u j
  /-- A new name is none of the names of the scope that stay. -/
  kept : ∀ (id : Nat) (s : Scope), t.scopes[id]? = some s → ∀ i ∈ own eligible t id,
    ∀ j ∈ s.names.map (·.2), isEligible eligible j = false → ∀ b, t.symbols[j]? = some b →
      newName? u i ≠ some b.name
  /-- A new name is none of the names of outer symbols that are used in the scope. -/
  outer : ∀ (id : Nat) (s : Scope), t.scopes[id]? = some s → ∀ i ∈ own eligible t id,
    ∀ j ∈ s.enclosed, ∀ b, u.symbols[j]? = some b → b.undeclared = true ∨ b.scope < id →
      newName? u i ≠ some b.outputName

def OwnHome (eligible : Eligible) (t : ScopeTree) : Prop :=
  ∀ id, ∀ i ∈ own eligible t id, ∃ x, t.home? i = some x ∧ x.scope = id ∧ x.undeclared = false

theorem OwnHome.ready (h : OwnHome eligible t)
    (hnone : ∀ (i : Nat) (s : Symbol), t.symbols[i]? = some s → s.newName = none) :
    Ready eligible t where
  none := hnone
  exists_symbol id i hi := by
    obtain ⟨x, hx, _⟩ := h id i hi
    obtain ⟨s, hs, _⟩ := Option.map_eq_some_iff.mp hx
    exact ⟨s, hs⟩
  unique id id' i hi hi' := by
    obtain ⟨x, hx, hscope, _⟩ := h id i hi
    obtain ⟨x', hx', hscope', _⟩ := h id' i hi'
    rw [hx] at hx'
    cases hx'
    exact hscope.symm.trans hscope'

theorem outcome_stage (ha : a.Complete) (o : RenameOptions) (hhome : OwnHome eligible t)
    (hnone : ∀ (i : Nat) (s : Symbol), t.symbols[i]? = some s → s.newName = none) :
    Outcome o eligible t (stage o a eligible t t.scopes.size) := by
  have hready := hhome.ready hnone
  -- what happens when a scope is named, and that it stays so
  have hscope : ∀ (id : Nat) (s : Scope), t.scopes[id]? = some s →
      let u := stage o a eligible t id
      RenamesOnly (fun i => ∃ k < id, i ∈ own eligible t k) t u
        ∧ (∀ i ∈ own eligible t id, ∃ x, newName? (stage o a eligible t t.scopes.size) i = some x
          ∧ x ∉ takenNames o [] u eligible id s ∧ x ∉ o.reserved)
        ∧ ∀ i ∈ own eligible t id, ∀ j ∈ own eligible t id, i ≠ j →
          newName? (stage o a eligible t t.scopes.size) i
            ≠ newName? (stage o a eligible t t.scopes.size) j := by
    intro id s hs u
    have hlt := (Array.getElem?_eq_some_iff.mp hs).1
    have hbefore := (stage_only ha o hready id).1
    have hus : u.scopes[id]? = some s := by rw [hbefore.scopes, hs]
    have hown := own_eq eligible hbefore id
    obtain ⟨_, hname, hdiffer⟩ := renameScope_spec ha o eligible hus fun i hi => by
      rw [hown] at hi
      obtain ⟨old, hold⟩ := hready.exists_symbol id i hi
      refine ⟨old, ?_, hnone i old hold⟩
      rw [hbefore.other i ?_, hold]
      rintro ⟨k, hk, hik⟩
      exact absurd (hready.unique k id i hik hi) (Nat.ne_of_lt hk)
    rw [← stage_succ, hown] at hname hdiffer
    have hfinal : ∀ i ∈ own eligible t id, newName? (stage o a eligible t t.scopes.size) i
        = newName? (stage o a eligible t (id + 1)) i := by
      intro i hi
      refine (stage_later ha o hready (Nat.succ_le_of_lt hlt)).newName? ?_
      rintro ⟨k, hk, hik⟩
      exact absurd (hready.unique id k i hi hik) (Nat.ne_of_lt hk)
    refine ⟨hbefore, ?_, ?_⟩
    · intro i hi
      rw [hfinal i hi]
      exact hname i hi
    · intro i hi j hj hij
      rw [hfinal i hi, hfinal j hj]
      exact hdiffer i hi j hj hij
  have hexists : ∀ id, ∀ i ∈ own eligible t id, ∃ s, t.scopes[id]? = some s := by
    intro id i hi
    obtain ⟨s, hs, _⟩ := mem_own.mp hi
    exact ⟨s, hs⟩
  exact {
    only := (stage_only ha o hready t.scopes.size).1.mono fun i ⟨id, _, hi⟩ => ⟨id, hi⟩
    name := by
      intro id i hi
      obtain ⟨s, hs⟩ := hexists id i hi
      obtain ⟨x, hx, _, hreserved⟩ := (hscope id s hs).2.1 i hi
      exact ⟨x, hx, hreserved⟩
    differ := by
      intro id i hi
      obtain ⟨s, hs⟩ := hexists id i hi
      exact (hscope id s hs).2.2 i hi
    kept := by
      intro id s hs i hi j hj hstays b hb heq
      obtain ⟨hbefore, hname, _⟩ := hscope id s hs
      obtain ⟨x, hx, htaken, _⟩ := hname i hi
      rw [hx] at heq
      cases heq
      apply htaken
      simp only [takenNames, List.mem_append]
      refine .inl (.inl (.inr ?_))
      obtain ⟨e, he, rfl⟩ := List.mem_map.mp hj
      refine List.mem_flatMap.mpr ⟨e, he, ?_⟩
      have hview := hbefore.map_view (·.name) (fun _ => rfl) e.2
      simp [hstays, hview, hb]
    outer := by
      intro id s hs i hi j hj b hb hhomeb heq
      obtain ⟨hbefore, hname, _⟩ := hscope id s hs
      obtain ⟨x, hx, htaken, _⟩ := hname i hi
      rw [hx] at heq
      cases heq
      apply htaken
      have hlt := (Array.getElem?_eq_some_iff.mp hs).1
      -- the outer symbol has its last name already
      have hlater := stage_later (a := a) ha o hready (Nat.le_of_lt hlt)
      have hview := (stage_only ha o hready t.scopes.size).1.map_view Symbol.home (fun _ => rfl) j
      have hsame : (stage o a eligible t id).symbols[j]? = some b := by
        rw [← hlater.other j ?_, hb]
        rintro ⟨k, hk, hjk⟩
        obtain ⟨y, hy, hyscope, hyund⟩ := hhome k j hjk
        rw [hb, Option.map_some] at hview
        have hyb : y = b.home := Option.mem_unique hy hview.symm
        rcases hhomeb with hund | hscope
        · rw [hyb] at hyund
          simp [Symbol.home, hund] at hyund
        · rw [hyb] at hyscope
          have : b.scope = k := hyscope
          omega
      simp only [takenNames, List.mem_append]
      refine .inl (.inl (.inl ?_))
      refine List.mem_flatMap.mpr ⟨j, hj, ?_⟩
      rw [hsame]
      have hcond : (b.undeclared || b.scope != id) = true := by
        rcases hhomeb with hund | hscope
        · simp [hund]
        · simp [Nat.ne_of_lt hscope]
      simp [hcond] }

end Laconic.Naming
