import Laconic.Proofs.Rename.Safety
import Mathlib.Data.List.Induction

/-!
# Names of earlier runs

A table of names for later runs gives the symbols of the outermost scope the names
that they had before.  Only the symbols that the table does not know get names from
the search for a free one, and that search leaves all names of the table out, also
those of names that do not occur in the present program.
-/

namespace Laconic

open ScopeTree

/-! ## Tables of names -/

namespace Renaming

/-- No two names have the same new name. -/
def Injective (r : Renaming) : Prop :=
  ∀ m n x, r.find? m = some x → r.find? n = some x → m = n

/-- Every name that has a new name in the first table has the same in the second. -/
def KeptBy (r r' : Renaming) : Prop := ∀ n x, r.find? n = some x → r'.find? n = some x

theorem find?_cons (e : String × String) (r : Renaming) (m : String) :
    find? (e :: r) m = if m = e.1 then some e.2 else r.find? m := by
  unfold find?
  rw [List.lookup_cons]
  by_cases h : m = e.1
  · simp [h]
  · have hne : (m == e.1) = false := by simpa using h
    simp [h, hne]

theorem find?_insert (name new : String) (r : Renaming) (m : String) :
    (insert name new r).find? m = if m = name then some new else r.find? m := by
  induction r with
  | nil => exact find?_cons _ _ _
  | cons e r ih =>
    unfold insert
    by_cases heq : name = e.1
    · subst heq
      simp only [beq_self_eq_true, ↓reduceIte, find?_cons]
      split <;> rfl
    · have hne : (name == e.1) = false := by simpa using heq
      rw [hne]
      by_cases hlt : name < e.1
      · simp only [Bool.false_eq_true, ↓reduceIte, hlt, find?_cons]
      · simp only [Bool.false_eq_true, ↓reduceIte, hlt, find?_cons, ih]
        by_cases hm : m = e.1
        · have hmn : ¬ m = name := fun h => heq (h.symm.trans hm)
          simp only [if_pos hm, if_neg hmn]
        · simp only [if_neg hm]

theorem mem_newNames {r : Renaming} {n x : String} (h : r.find? n = some x) : x ∈ r.newNames := by
  induction r with
  | nil => cases h
  | cons e r ih =>
    rw [find?_cons] at h
    split at h
    · cases h
      exact List.mem_cons_self
    · exact List.mem_cons_of_mem _ (ih h)

/-- A table with more names, one after the other. -/
def insertAll (entries : List (String × String)) (r : Renaming) : Renaming :=
  entries.foldl (fun r e => r.insert e.1 e.2) r

/-- What a table knows after names have been added, each at most once. -/
theorem find?_insertAll {entries : List (String × String)} (h : (entries.map (·.1)).Nodup)
    (r : Renaming) (n x : String) :
    (insertAll entries r).find? n = some x ↔
      (n, x) ∈ entries ∨ n ∉ entries.map (·.1) ∧ r.find? n = some x := by
  induction entries generalizing r with
  | nil => simp [insertAll]
  | cons e rest ih =>
    obtain ⟨hnot, hrest⟩ := List.nodup_cons.mp h
    have hstep : insertAll (e :: rest) r = insertAll rest (r.insert e.1 e.2) := rfl
    rw [hstep, ih hrest, find?_insert, List.map_cons, List.mem_cons, List.mem_cons]
    by_cases hn : n = e.1
    · subst hn
      have hmem : ∀ y, (e.1, y) ∉ rest := fun y hy => hnot (List.mem_map.mpr ⟨_, hy, rfl⟩)
      simp only [hmem, ↓reduceIte, false_or, Option.some.injEq, or_false, true_or,
        not_true_eq_false,
        false_and]
      constructor
      · rintro ⟨_, rfl⟩
        rfl
      · intro heq
        exact ⟨hnot, congrArg Prod.snd heq.symm⟩
    · have hne : ¬ (n, x) = e := fun heq => hn (congrArg Prod.fst heq)
      simp only [hne, hn, ↓reduceIte, false_or]

end Renaming

namespace Naming

variable {t : ScopeTree} {a : Alphabet} {eligible : Eligible}

/-! ## The symbols that a scope touches -/

theorem renamesOnly_foldl {σ : Type} (tree : σ → ScopeTree) {f : σ → Nat → σ}
    (hf : ∀ s i, RenamesOnly (· = i) (tree s) (tree (f s i))) (ids : List Nat) (s : σ) :
    RenamesOnly (· ∈ ids) (tree s) (tree (ids.foldl f s)) := by
  induction ids generalizing s with
  | nil => exact .refl _ _
  | cons i ids ih =>
    refine ((hf s i).mono ?_).trans ((ih (f s i)).mono fun j hj => List.mem_cons_of_mem _ hj)
    rintro j rfl
    exact List.mem_cons_self

theorem renamesOnly_renameOwn (a : Alphabet) (s : State) (i : Nat) :
    RenamesOnly (· = i) s.tree (renameOwn a s i).tree := by
  unfold renameOwn
  split
  · exact .refl _ _
  · exact renamesOnly_rename _ _ _

/-- Gives one symbol the name of earlier runs, if there is one. -/
def recallName (cache : Renaming) (t : ScopeTree) (i : Nat) : ScopeTree :=
  match cachedName? cache t i with
  | some name => rename t i name
  | none => t

theorem renameCached_eq (cache : Renaming) (t : ScopeTree) (ids : List Nat) :
    renameCached cache t ids = ids.foldl (recallName cache) t := rfl

theorem renamesOnly_recallName (cache : Renaming) (t : ScopeTree) (i : Nat) :
    RenamesOnly (· = i) t (recallName cache t i) := by
  unfold recallName
  split
  · exact renamesOnly_rename _ _ _
  · exact .refl _ _

theorem renamesOnly_renameScope (o : RenameOptions) (cache : Renaming) (a : Alphabet)
    (eligible : Eligible) (t : ScopeTree) (id : Nat) :
    RenamesOnly (· ∈ own eligible t id) t (renameScope o cache a eligible t id) := by
  unfold renameScope own
  cases t.scopes[id]? with
  | none => exact .refl _ _
  | some s =>
    dsimp only
    generalize (s.names.map (·.2)).filter (isEligible eligible) = ids
    refine RenamesOnly.trans ?_ (renamesOnly_foldl State.tree (renamesOnly_renameOwn a) ids _)
    split
    · exact renamesOnly_foldl (fun t => t) (renamesOnly_recallName cache) ids t
    · exact .refl _ _

/-- The tree after some of the scopes have been named. -/
def stageFrom (o : RenameOptions) (cache : Renaming) (a : Alphabet) (eligible : Eligible)
    (t : ScopeTree) (n : Nat) : ScopeTree :=
  (List.range n).foldl (renameScope o cache a eligible) t

theorem stageFrom_succ (o : RenameOptions) (cache : Renaming) (a : Alphabet) (eligible : Eligible)
    (t : ScopeTree) (n : Nat) : stageFrom o cache a eligible t (n + 1)
      = renameScope o cache a eligible (stageFrom o cache a eligible t n) n := by
  rw [stageFrom, List.range_succ, List.foldl_append]
  rfl

theorem renamesOnly_stageFrom (o : RenameOptions) (cache : Renaming) (a : Alphabet)
    (eligible : Eligible) (t : ScopeTree) {n m : Nat} (hle : n ≤ m) :
    RenamesOnly (fun i => ∃ id, n ≤ id ∧ i ∈ own eligible t id) (stageFrom o cache a eligible t n)
      (stageFrom o cache a eligible t m) := by
  have hscopes : ∀ m, (stageFrom o cache a eligible t m).scopes = t.scopes := by
    intro m
    induction m with
    | zero => rfl
    | succ m ih =>
      rw [stageFrom_succ, (renamesOnly_renameScope o cache a eligible _ m).scopes, ih]
  induction m, hle using Nat.le_induction with
  | base => exact .refl _ _
  | succ m hle ih =>
    rw [stageFrom_succ]
    refine ih.trans ((renamesOnly_renameScope o cache a eligible _ m).mono ?_)
    intro i hi
    refine ⟨m, hle, ?_⟩
    unfold own at hi ⊢
    rwa [hscopes] at hi

/-! ## The outermost scope -/

theorem cachedName?_eq (cache : Renaming) (t : ScopeTree) (i : Nat) :
    cachedName? cache t i = (t.home? i).bind fun x => cache.find? x.name := by
  unfold cachedName? home?
  cases t.symbols[i]? <;> rfl

/-- The names that the symbols have when those of earlier runs have been given out. -/
theorem newName?_renameCached (cache : Renaming)
    (hnone : ∀ (i : Nat) (s : Symbol), t.symbols[i]? = some s → s.newName = none) (ids : List Nat)
    (i : Nat) :
    newName? (renameCached cache t ids) i = if i ∈ ids then cachedName? cache t i else none := by
  have hnew : ∀ j, newName? t j = none := by
    intro j
    unfold newName?
    cases hs : t.symbols[j]? with
    | none => rfl
    | some s => exact hnone j s hs
  rw [renameCached_eq]
  induction ids using List.reverseRecOn with
  | nil => simpa using hnew i
  | append_singleton ids j ih =>
    have honly := renamesOnly_foldl (fun t => t) (renamesOnly_recallName cache) ids t
    rw [List.foldl_append, List.foldl_cons, List.foldl_nil]
    generalize ids.foldl (recallName cache) t = u at ih honly ⊢
    have hsame : ∀ k, cachedName? cache u k = cachedName? cache t k := by
      intro k
      rw [cachedName?_eq, cachedName?_eq, honly.alike.home]
    by_cases hi : i = j
    · subst hi
      rw [if_pos (by simp), recallName, hsame]
      cases hc : cachedName? cache t i with
      | none =>
        rw [ih, hc, ite_self]
      | some name =>
        obtain ⟨s, hs, _⟩ := Option.bind_eq_some_iff.mp ((hsame i).trans hc)
        exact newName?_rename u hs name
    · rw [(renamesOnly_recallName cache u j).newName? hi, ih]
      have hmem : i ∈ ids ++ [j] ↔ i ∈ ids := by simp [hi]
      simp only [hmem]

theorem foldl_renameOwn_filter (a : Alphabet) (ids : List Nat) {s : State} {done : List Nat}
    (honly : RenamesOnly (· ∈ done) t s.tree) (hdone : ∀ i ∈ done, (newName? t i).isNone = true) :
    ids.foldl (renameOwn a) s
      = (ids.filter fun i => (newName? t i).isNone).foldl (renameOwn a) s := by
  induction ids generalizing s done with
  | nil => rfl
  | cons i ids ih =>
    rw [List.foldl_cons, List.filter_cons]
    cases hi : (newName? t i).isNone with
    | true =>
      have hnext : RenamesOnly (· ∈ i :: done) t (renameOwn a s i).tree := by
        refine (honly.mono fun j hj => List.mem_cons_of_mem _ hj).trans
          ((renamesOnly_renameOwn a s i).mono ?_)
        rintro j rfl
        exact List.mem_cons_self
      refine ih hnext ?_
      intro j hj
      rcases List.mem_cons.mp hj with rfl | hj
      · exact hi
      · exact hdone j hj
    | false =>
      have hnot : i ∉ done := by
        intro hmem
        rw [hdone i hmem] at hi
        cases hi
      have hnamed : s.tree.symbols[i]?.any (·.newName.isSome) = true := by
        rw [honly.other i hnot]
        unfold newName? at hi
        cases hs : t.symbols[i]? with
        | none => simp [hs] at hi
        | some old => simpa [hs] using hi
      have hsame : renameOwn a s i = s := by
        unfold renameOwn
        rw [if_pos hnamed]
      rw [hsame]
      simpa using ih honly hdone

/-- The names of the outermost scope, given those of earlier runs. -/
structure Reused (o : RenameOptions) (cache : Renaming) (eligible : Eligible) (t u : ScopeTree) :
    Prop where
  only : RenamesOnly (fun i => ∃ id, i ∈ own eligible t id) t u
  /-- The name of an earlier run is taken over. -/
  cached : ∀ i ∈ own eligible t root, ∀ x, cachedName? cache t i = some x →
    newName? u i = some x
  /-- Any other name is free. -/
  fresh : ∀ s, t.scopes[root]? = some s → ∀ i ∈ own eligible t root,
    cachedName? cache t i = none → ∃ x, newName? u i = some x
      ∧ x ∉ takenNames o cache t eligible root s ∧ x ∉ o.reserved
  differ : ∀ i ∈ own eligible t root, ∀ j ∈ own eligible t root, i ≠ j →
    cachedName? cache t i = none → cachedName? cache t j = none → newName? u i ≠ newName? u j

theorem reused_renameScope (ha : a.Complete) (o : RenameOptions) (cache : Renaming)
    (hready : Ready eligible t) :
    Reused o cache eligible t (renameScope o cache a eligible t root) := by
  have honly := renamesOnly_renameScope o cache a eligible t root
  cases hs : t.scopes[root]? with
  | none =>
    have hown : own eligible t root = [] := by simp [own, hs]
    have hnot : ∀ i, i ∉ own eligible t root := by simp [hown]
    exact ⟨honly.mono fun i hi => ⟨_, hi⟩, fun i hi => absurd hi (hnot i),
      fun _ _ i hi => absurd hi (hnot i), fun i hi => absurd hi (hnot i)⟩
  | some s =>
    have hown : own eligible t root
        = (s.names.map (·.2)).filter (isEligible eligible) := by simp [own, hs]
    generalize hids : own eligible t root = ids at hown honly
    have hrecalled := newName?_renameCached cache hready.none ids
    have hrecallOnly := renamesOnly_foldl (fun t => t) (renamesOnly_recallName cache) ids t
    rw [← renameCached_eq] at hrecallOnly
    have heq : renameScope o cache a eligible t root
        = (ids.foldl (renameOwn a)
          { tree := renameCached cache t ids
            taken := takenNames o cache t eligible root s ++ o.reserved }).tree := by
      simp only [renameScope, hs, hown, beq_self_eq_true, ↓reduceIte]
    generalize renameCached cache t ids = v at hrecalled hrecallOnly heq
    generalize htaken : takenNames o cache t eligible root s ++ o.reserved = taken at heq
    have hstart : Named v taken [] { tree := v, taken := taken } :=
      ⟨.refl _ v, fun _ hx => hx, by simp, by simp⟩
    have hfresh : ∀ i ∈ ids.filter fun i => (newName? v i).isNone,
        ∃ old, v.symbols[i]? = some old ∧ old.newName = none := by
      intro i hi
      obtain ⟨hmem, hnone⟩ := List.mem_filter.mp hi
      obtain ⟨b, hb⟩ := hready.exists_symbol root i (hids ▸ hmem)
      have hview := hrecallOnly.symbol i
      rw [hb, Option.map_some] at hview
      obtain ⟨old, hold, _⟩ := Option.map_eq_some_iff.mp hview
      refine ⟨old, hold, ?_⟩
      simpa [newName?, hold] using hnone
    obtain ⟨done, hdone, hnamed⟩ := hstart.foldl ha _ hfresh
    have hnobody : RenamesOnly (· ∈ ([] : List Nat)) v v := .refl _ v
    rw [← foldl_renameOwn_filter a ids hnobody (by simp)] at hnamed
    rw [heq] at honly ⊢
    generalize ids.foldl (renameOwn a) { tree := v, taken := taken } = final at hnamed honly ⊢
    have huncached : ∀ i ∈ ids, cachedName? cache t i = none → i ∈ done := by
      intro i hi hnone
      refine (hdone i).mpr (.inl (List.mem_filter.mpr ⟨hi, ?_⟩))
      rw [hrecalled, if_pos hi, hnone]
      rfl
    refine ⟨honly.mono fun i hi => ⟨_, hids ▸ hi⟩, ?_, ?_, ?_⟩
    · intro i hi x hx
      rw [hids] at hi
      have hnot : i ∉ done := by
        intro hmem
        rcases (hdone i).mp hmem with hmem | hmem
        · have hnone := (List.mem_filter.mp hmem).2
          rw [hrecalled, if_pos hi, hx] at hnone
          cases hnone
        · cases hmem
      rw [hnamed.only.newName? hnot, hrecalled, if_pos hi, hx]
    · intro s' hs' i hi hnone
      rw [hids] at hi
      cases Option.mem_unique hs hs'
      obtain ⟨x, hx, _, hnot⟩ := hnamed.name i (huncached i hi hnone)
      rw [← htaken, List.mem_append, not_or] at hnot
      exact ⟨x, hx, hnot⟩
    · intro i hi j hj hij hinone hjnone
      rw [hids] at hi hj
      exact hnamed.differ i (huncached i hi hinone) j (huncached j hj hjnone) hij

theorem reused_stageFrom (ha : a.Complete) (o : RenameOptions) (cache : Renaming)
    (hready : Ready eligible t) (hroot : 0 < t.scopes.size) :
    Reused o cache eligible t (stageFrom o cache a eligible t t.scopes.size) := by
  have hfirst := reused_renameScope ha o cache hready
  have hlater := renamesOnly_stageFrom o cache a eligible t (Nat.succ_le_of_lt hroot)
  have hfinal : ∀ i ∈ own eligible t root,
      newName? (stageFrom o cache a eligible t t.scopes.size) i
        = newName? (renameScope o cache a eligible t root) i := by
    intro i hi
    refine hlater.newName? ?_
    rintro ⟨id, hid, hmem⟩
    have : root = id := hready.unique _ _ i hi hmem
    rw [← this] at hid
    exact absurd hid (by decide)
  refine ⟨hfirst.only.trans (hlater.mono fun i ⟨id, _, hi⟩ => ⟨id, hi⟩), ?_, ?_, ?_⟩
  · intro i hi x hx
    rw [hfinal i hi]
    exact hfirst.cached i hi x hx
  · intro s hs i hi hnone
    rw [hfinal i hi]
    exact hfirst.fresh s hs i hi hnone
  · intro i hi j hj
    rw [hfinal i hi, hfinal j hj]
    exact hfirst.differ i hi j hj

/-- The names of the outermost scope of a resolved program, given those of earlier
runs. -/
theorem reused_renameVariables (o : RenameOptions) (p : Program) (h : t.Resolved)
    (hroot : 0 < t.scopes.size) (cache : Renaming) :
    Reused o cache (eligibleIn o t) (cleared t) (renameVariables o p t cache).2.1 :=
  reused_stageFrom (Alphabet.complete_ofFrequency _) o cache
    ((ownHome_cleared h).ready newName_cleared) hroot

end Naming

end Laconic
