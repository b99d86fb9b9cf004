import Laconic.Scope.Resolve
import Mathlib.Data.List.Nodup
import Mathlib.Data.Nat.Find

/-!
# The names of scopes

A scope finds the symbol of a name in a table.  Declaring a name again where the
old declaration gives way puts a new symbol in the place of the old one, so the
table has the last of the symbols that were declared under the name, and the
others are hidden for good.  `Tabled` says this of all scopes at once: the tables
are determined by the list of symbols.  It is kept by whatever leaves the names
of symbols and the tables alone, and by `addSymbol`.
-/

namespace Laconic

/-! ## Tables -/

namespace NameTable

theorem find?_cons (e : String × Nat) (rest : NameTable) (m : String) :
    find? (e :: rest) m = if m = e.1 then some e.2 else find? rest m := by
  unfold find?
  rw [List.lookup_cons]
  by_cases hm : m = e.1
  · simp [hm]
  · have hbeq : (m == e.1) = false := by simpa using hm
    simp [hm, hbeq]

theorem find?_append (t u : NameTable) (m : String) :
    find? (t ++ u) m = (find? t m).or (find? u m) :=
  List.lookup_append

variable (t : NameTable) (name : String) (n : Nat)

private theorem find?_map_replace (m : String) :
    find? (t.map fun e => if e.1 == name then (name, n) else e) m
      = if m = name then (find? t name).map fun _ => n else find? t m := by
  induction t with
  | nil => simp [find?]
  | cons e rest ih =>
    rw [List.map_cons, find?_cons, find?_cons, find?_cons, ih]
    by_cases hk : e.1 = name
    · by_cases hm : m = name
      · simp [hk, hm]
      · simp [hk, hm]
    · have hkn : (e.1 == name) = false := by simpa using hk
      by_cases hm : m = name
      · subst hm
        have hne : ¬ m = e.1 := fun h => hk h.symm
        simp [hkn, hne]
      · simp [hkn, hm]

theorem find?_insert (m : String) :
    find? (insert t name n) m = if m = name then some n else find? t m := by
  unfold insert
  split
  · next h =>
    rw [find?_map_replace]
    obtain ⟨v, hv⟩ := Option.isSome_iff_exists.mp h
    simp [hv]
  · next h =>
    have hnone : find? t name = none := by simpa only [Option.not_isSome_iff_eq_none] using h
    rw [find?_append, find?_cons]
    by_cases hm : m = name
    · simp [hm, hnone]
    · simp [hm, find?]

private theorem keys_map_replace :
    (t.map fun e => if e.1 == name then (name, n) else e).map (·.1) = t.map (·.1) := by
  induction t with
  | nil => rfl
  | cons e rest ih =>
    rw [List.map_cons, List.map_cons, List.map_cons, ih]
    by_cases hk : e.1 = name
    · simp [hk]
    · simp [hk]

theorem nodup_insert {t : NameTable} (h : (t.map (·.1)).Nodup) (name : String) (n : Nat) :
    ((insert t name n).map (·.1)).Nodup := by
  unfold insert
  split
  · rw [keys_map_replace]
    exact h
  · next hnone =>
    have hlookup : find? t name = none := by
      simpa only [Option.not_isSome_iff_eq_none] using hnone
    rw [List.map_append, List.nodup_append]
    refine ⟨h, by simp, ?_⟩
    intro k hk k' hk' heq
    obtain ⟨e, he, rfl⟩ := List.mem_map.mp hk
    have hne := List.lookup_eq_none_iff.mp hlookup e he
    simp only [List.map_cons, List.map_nil, List.mem_singleton] at hk'
    simp [← hk', heq] at hne

theorem mem_iff_find? {t : NameTable} (h : (t.map (·.1)).Nodup) (name : String) (n : Nat) :
    (name, n) ∈ t ↔ find? t name = some n := by
  induction t with
  | nil => simp [find?]
  | cons e rest ih =>
    obtain ⟨k, v⟩ := e
    simp only [List.map_cons, List.nodup_cons] at h
    rw [find?_cons, List.mem_cons, Prod.mk.injEq, ih h.2]
    by_cases hk : name = k
    · subst hk
      have hrest : find? rest name ≠ some n := by
        intro hfound
        exact h.1 (List.mem_map_of_mem ((ih h.2).mpr hfound))
      simp [hrest, eq_comm]
    · simp [hk]

end NameTable

/-! ## Changes of a tree -/

namespace ScopeTree

variable {t : ScopeTree}

def namesOf (t : ScopeTree) (id : Nat) : NameTable := (t.scopes[id]?.map (·.names)).getD []

theorem namesOf_eq {id : Nat} {s : Scope} (h : t.scopes[id]? = some s) :
    t.namesOf id = s.names := by
  simp [namesOf, h]

theorem declared?_eq_find? (t : ScopeTree) (name : String) (id : Nat) :
    t.declared? name id = NameTable.find? (t.namesOf id) name := by
  unfold declared? namesOf
  cases t.scopes[id]? with
  | none => rfl
  | some s => rfl

section

variable {α : Type} (t : ScopeTree) (id : Nat)

@[simp] theorem symbols_modifyScope (f : Scope → Scope) :
    (t.modifyScope id f).symbols = t.symbols := rfl

@[simp] theorem globals_modifyScope (f : Scope → Scope) :
    (t.modifyScope id f).globals = t.globals := rfl

@[simp] theorem scopes_modifySymbol (f : Symbol → Symbol) :
    (t.modifySymbol id f).scopes = t.scopes := rfl

@[simp] theorem globals_modifySymbol (f : Symbol → Symbol) :
    (t.modifySymbol id f).globals = t.globals := rfl

@[simp] theorem size_scopes_modifyScope (f : Scope → Scope) :
    (t.modifyScope id f).scopes.size = t.scopes.size := by
  simp [modifyScope]

@[simp] theorem size_symbols_modifySymbol (f : Symbol → Symbol) :
    (t.modifySymbol id f).symbols.size = t.symbols.size := by
  simp [modifySymbol]

theorem getElem?_scopes_modifyScope (f : Scope → Scope) (j : Nat) :
    (t.modifyScope id f).scopes[j]? = if id = j then t.scopes[j]?.map f else t.scopes[j]? := by
  simp [modifyScope, Array.getElem?_modify]

theorem getElem?_symbols_modifySymbol (f : Symbol → Symbol) (j : Nat) :
    (t.modifySymbol id f).symbols[j]? = if id = j then t.symbols[j]?.map f else t.symbols[j]? := by
  simp [modifySymbol, Array.getElem?_modify]

theorem map_getElem?_modifyScope (f : Scope → Scope) (view : Scope → α)
    (h : ∀ s, view (f s) = view s) (j : Nat) :
    (t.modifyScope id f).scopes[j]?.map view = t.scopes[j]?.map view := by
  rw [getElem?_scopes_modifyScope]
  split
  · cases t.scopes[j]? with
    | none => rfl
    | some s => simp [h]
  · rfl

theorem map_getElem?_modifySymbol (f : Symbol → Symbol) (view : Symbol → α)
    (h : ∀ s, view (f s) = view s) (j : Nat) :
    (t.modifySymbol id f).symbols[j]?.map view = t.symbols[j]?.map view := by
  rw [getElem?_symbols_modifySymbol]
  split
  · cases t.symbols[j]? with
    | none => rfl
    | some s => simp [h]
  · rfl

end

def newSymbol (name : String) (kind : BindingKind) (scope : Nat) (loc : Span) : Symbol :=
  { name, scope, kind
    declarations := if loc.isNowhere then [] else [loc]
    references := []
    assignments := 0
    exported := false
    undeclared := kind == .global
    escaped := false
    fixed := none
    newName := none }

section

variable (t : ScopeTree) (name : String) (kind : BindingKind) (scope : Nat) (loc : Span)

@[simp] theorem addSymbol_snd : (t.addSymbol name kind scope loc).2 = t.symbols.size := by
  unfold addSymbol
  dsimp only
  split <;> rfl

@[simp] theorem symbols_addSymbol : (t.addSymbol name kind scope loc).1.symbols
      = t.symbols.push (newSymbol name kind scope loc) := by
  unfold addSymbol
  dsimp only
  split <;> rfl

@[simp] theorem globals_addSymbol : (t.addSymbol name kind scope loc).1.globals = t.globals := by
  unfold addSymbol
  dsimp only
  split <;> rfl

theorem scopes_addSymbol_global :
    (t.addSymbol name .global scope loc).1.scopes = t.scopes := rfl

theorem scopes_addSymbol {kind : BindingKind} (h : kind ≠ .global) (t : ScopeTree) (name : String)
    (scope : Nat) (loc : Span) :
    (t.addSymbol name kind scope loc).1.scopes
      = t.scopes.modify scope fun s => { s with names := s.names.insert name t.symbols.size } := by
  have hk : (kind == BindingKind.global) = false := by simpa using h
  simp [addSymbol, hk, modifyScope]

/-- A view of scopes that does not show the tables is kept when a symbol is
added. -/
theorem map_getElem?_addSymbol {α : Type} (view : Scope → α)
    (h : ∀ (s : Scope) (names : NameTable), view { s with names } = view s) (j : Nat) :
    (t.addSymbol name kind scope loc).1.scopes[j]?.map view = t.scopes[j]?.map view := by
  by_cases hk : kind = .global
  · subst hk
    rw [scopes_addSymbol_global]
  · rw [scopes_addSymbol hk]
    exact map_getElem?_modifyScope t scope _ view (fun s => h s _) j

@[simp] theorem size_scopes_addSymbol :
    (t.addSymbol name kind scope loc).1.scopes.size = t.scopes.size := by
  by_cases hk : kind = .global
  · subst hk
    rw [scopes_addSymbol_global]
  · rw [scopes_addSymbol hk, Array.size_modify]

end

/-! ## Tables and symbols -/

/-- A symbol is declared in a scope by a name. -/
def Declares (t : ScopeTree) (scope : Nat) (name : String) (i : Nat) : Prop :=
  ∃ s, t.symbols[i]? = some s ∧ s.scope = scope ∧ s.name = name ∧ s.undeclared = false

theorem Declares.lt_size {scope : Nat} {name : String} {i : Nat} (h : t.Declares scope name i) :
    i < t.symbols.size := by
  obtain ⟨s, hs, _⟩ := h
  exact (Array.getElem?_eq_some_iff.mp hs).1

/-- The table of each scope has the last symbol that is declared in the scope
under a name. -/
structure Tabled (t : ScopeTree) : Prop where
  last : ∀ scope name i, t.declared? name scope = some i ↔
    t.Declares scope name i ∧ ∀ j, t.Declares scope name j → j ≤ i
  nodup : ∀ (id : Nat) (s : Scope), t.scopes[id]? = some s → (s.names.map (·.1)).Nodup

namespace Tabled

variable {t : ScopeTree} {i scope : Nat} {name : String}

theorem declares (h : t.Tabled) (hi : t.declared? name scope = some i) : t.Declares scope name i :=
  ((h.last scope name i).mp hi).1

/-- A name that a symbol is declared under is found, though perhaps with a later
symbol. -/
theorem exists_of_declares (h : t.Tabled) (hi : t.Declares scope name i) :
    ∃ j, t.declared? name scope = some j ∧ i ≤ j := by
  classical
  let P := fun j => t.Declares scope name j
  have hbound : ∀ j, P j → j ≤ t.symbols.size := fun j hj => Nat.le_of_lt hj.lt_size
  refine ⟨Nat.findGreatest P t.symbols.size, ?_, ?_⟩
  · rw [h.last]
    refine ⟨Nat.findGreatest_spec (hbound i hi) hi, ?_⟩
    intro j hj
    exact Nat.le_findGreatest (hbound j hj) hj
  · exact Nat.le_findGreatest (hbound i hi) hi

theorem mem_names_iff (h : t.Tabled) {id : Nat} {s : Scope} (hs : t.scopes[id]? = some s)
    (name : String) (i : Nat) : (name, i) ∈ s.names ↔ t.declared? name id = some i := by
  rw [declared?_eq_find?, namesOf_eq hs]
  exact NameTable.mem_iff_find? (h.nodup id s hs) name i

end Tabled

/-- Whether names are declared in the same way in two trees. -/
structure SameNames (t u : ScopeTree) : Prop where
  names : ∀ id : Nat, u.scopes[id]?.map (·.names) = t.scopes[id]?.map (·.names)
  symbols : ∀ i : Nat, u.symbols[i]?.map (fun s => (s.scope, s.name, s.undeclared))
    = t.symbols[i]?.map (fun s => (s.scope, s.name, s.undeclared))

namespace SameNames

variable {t u : ScopeTree}

theorem symm (h : SameNames t u) : SameNames u t :=
  ⟨fun id => (h.names id).symm, fun i => (h.symbols i).symm⟩

theorem declared? (h : SameNames t u) (name : String) (id : Nat) :
    u.declared? name id = t.declared? name id := by
  simp only [declared?_eq_find?, namesOf, h.names id]

theorem declares (h : SameNames t u) {scope : Nat} {name : String} {i : Nat}
    (hi : t.Declares scope name i) : u.Declares scope name i := by
  obtain ⟨s, hs, hscope, hname, hund⟩ := hi
  have hsame := h.symbols i
  rw [hs] at hsame
  obtain ⟨s', hs', heq⟩ := Option.map_eq_some_iff.mp hsame
  simp only [Prod.mk.injEq] at heq
  exact ⟨s', hs', heq.1.trans hscope, heq.2.1.trans hname, heq.2.2.trans hund⟩

theorem declares_iff (h : SameNames t u) (scope : Nat) (name : String) (i : Nat) :
    u.Declares scope name i ↔ t.Declares scope name i :=
  ⟨h.symm.declares, h.declares⟩

end SameNames

theorem Tabled.of_same {u : ScopeTree} (h : t.Tabled) (hsame : SameNames t u) : u.Tabled where
  last := by
    intro scope name i
    rw [hsame.declared?, h.last]
    simp only [hsame.declares_iff]
  nodup := by
    intro id s hs
    have hnames := hsame.names id
    rw [hs] at hnames
    obtain ⟨s', hs', heq⟩ := Option.map_eq_some_iff.mp hnames.symm
    have heq : s'.names = s.names := heq
    rw [← heq]
    exact h.nodup id s' hs'

/-! ## Adding a symbol -/

section AddSymbol

variable (t : ScopeTree) (name : String) (kind : BindingKind) (scope : Nat) (loc : Span) {i : Nat}
variable {home : Nat} {m : String}

theorem declares_addSymbol_of_lt (h : i < t.symbols.size) :
    (t.addSymbol name kind scope loc).1.Declares home m i ↔ t.Declares home m i := by
  simp only [Declares, symbols_addSymbol, Array.getElem?_push_lt h, Array.getElem?_eq_getElem h]

theorem declares_addSymbol_size : (t.addSymbol name kind scope loc).1.Declares home m t.symbols.size
      ↔ scope = home ∧ name = m ∧ kind ≠ .global := by
  simp [Declares, newSymbol]

theorem declares_addSymbol :
    (t.addSymbol name kind scope loc).1.Declares home m i
      ↔ t.Declares home m i ∨ i = t.symbols.size ∧ scope = home ∧ name = m ∧ kind ≠ .global := by
  rcases Nat.lt_trichotomy i t.symbols.size with hlt | heq | hgt
  · rw [declares_addSymbol_of_lt t name kind scope loc hlt]
    have hne : i ≠ t.symbols.size := by omega
    simp [hne]
  · subst heq
    rw [declares_addSymbol_size]
    have hnot : ¬ t.Declares home m t.symbols.size := fun h => Nat.lt_irrefl _ h.lt_size
    simp [hnot]
  · have hne : i ≠ t.symbols.size := by omega
    have hleft : ¬ (t.addSymbol name kind scope loc).1.Declares home m i := by
      intro h
      have := h.lt_size
      simp at this
      omega
    have hright : ¬ t.Declares home m i := fun h => by
      have := h.lt_size
      omega
    simp [hleft, hright, hne]

/-- The new symbol is found under its name in its scope, and everything else as
before. -/
theorem declared?_addSymbol {kind : BindingKind} (hk : kind ≠ .global)
    (hscope : scope < t.scopes.size) (home : Nat) (m : String) :
    (t.addSymbol name kind scope loc).1.declared? m home
      = if scope = home ∧ m = name then some t.symbols.size else t.declared? m home := by
  simp only [declared?_eq_find?, namesOf]
  rw [scopes_addSymbol hk, Array.getElem?_modify]
  by_cases hs : scope = home
  · subst hs
    rw [Array.getElem?_eq_getElem hscope]
    simp [NameTable.find?_insert]
  · simp [hs]

end AddSymbol

theorem Tabled.addSymbol (h : t.Tabled) (name : String) {kind : BindingKind} (hk : kind ≠ .global)
    {scope : Nat} (hscope : scope < t.scopes.size) (loc : Span) :
    (t.addSymbol name kind scope loc).1.Tabled where
  last := by
    intro home m i
    rw [declared?_addSymbol t name scope loc hk hscope]
    simp only [declares_addSymbol]
    by_cases hnew : scope = home ∧ m = name
    · obtain ⟨rfl, rfl⟩ := hnew
      simp only [and_self, ↓reduceIte, Option.some.injEq, true_and, ne_eq]
      constructor
      · intro hi
        subst hi
        refine ⟨.inr ⟨rfl, hk⟩, ?_⟩
        rintro j (hj | hj)
        · exact Nat.le_of_lt hj.lt_size
        · exact Nat.le_of_eq hj.1
      · rintro ⟨hi, hmax⟩
        have hle := hmax t.symbols.size (.inr ⟨rfl, hk⟩)
        rcases hi with hi | hi
        · have := hi.lt_size
          omega
        · exact hi.1.symm
    · have hold : ∀ j, ¬ (j = t.symbols.size ∧ scope = home ∧ name = m ∧ kind ≠ .global) :=
        fun j hj => hnew ⟨hj.2.1, hj.2.2.1.symm⟩
      simp only [hnew, ↓reduceIte, hold, or_false]
      exact h.last home m i
  nodup := by
    intro id s hs
    rw [scopes_addSymbol hk, Array.getElem?_modify] at hs
    split at hs
    · obtain ⟨s', hs', rfl⟩ := Option.map_eq_some_iff.mp hs
      exact NameTable.nodup_insert (h.nodup id s' hs') name _
    · exact h.nodup id s hs

theorem Tabled.addSymbol_global (h : t.Tabled) (name : String) (scope : Nat) (loc : Span) :
    (t.addSymbol name .global scope loc).1.Tabled where
  last := by
    intro home m i
    simp only [declares_addSymbol, ne_eq, not_true_eq_false, and_false, or_false]
    exact h.last home m i
  nodup := h.nodup

/-! ## Exported symbols -/

/-- Only symbols of the outermost scope are exported. -/
def Exports (t : ScopeTree) : Prop :=
  ∀ (i : Nat) (s : Symbol), t.symbols[i]? = some s → s.exported = true →
    s.undeclared = true ∨ s.scope = root

namespace Exports

variable {t u : ScopeTree}

theorem of_same (h : t.Exports)
    (hview : ∀ i : Nat, u.symbols[i]?.map (fun s => (s.exported, s.undeclared, s.scope))
      = t.symbols[i]?.map (fun s => (s.exported, s.undeclared, s.scope))) : u.Exports := by
  intro i s hs hexported
  have hsame := hview i
  rw [hs] at hsame
  obtain ⟨s', hs', heq⟩ := Option.map_eq_some_iff.mp hsame.symm
  simp only [Prod.mk.injEq] at heq
  rw [← heq.2.1, ← heq.2.2]
  exact h i s' hs' (heq.1.trans hexported)

theorem addSymbol (h : t.Exports) (name : String) (kind : BindingKind) (scope : Nat)
    (loc : Span) : (t.addSymbol name kind scope loc).1.Exports := by
  intro i s hs hexported
  rw [symbols_addSymbol, Array.getElem?_push] at hs
  split at hs
  · cases hs
    cases hexported
  · exact h i s hs hexported

theorem markExported (h : t.Exports) {i : Nat} {s : Symbol} (hs : t.symbols[i]? = some s)
    (hhome : s.undeclared = true ∨ s.scope = root) : (t.markExported i).Exports := by
  intro j u hu hexported
  rw [ScopeTree.markExported, getElem?_symbols_modifySymbol] at hu
  split at hu
  · next hij =>
    rw [← hij, hs, Option.map_some, Option.some.injEq] at hu
    rw [← hu]
    exact hhome
  · exact h j u hu hexported

end Exports

end ScopeTree

end Laconic
