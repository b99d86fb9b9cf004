import Laconic.Proofs.Scope.Declare

/-!
# Finding names

The run that finds the symbols of references looks for a name in the scopes
around it, from the inside out.  A symbol that is found is from then on enclosed
by every scope that the search went through.  So a symbol that a scope encloses
is either one of its own, or the scope does not know the name at all and the
scope around it encloses the symbol too (`Held`).

The tree only grows in this run (`Grows`): what a scope finds it will always
find, and what it does not know it will never know.  A judgment about a moment of
the run is therefore one about its end.
-/

namespace Laconic

open ScopeTree ScopeEvent

/-- Where and under which name a symbol is declared. -/
structure Home where
  name : String
  scope : Nat
  kind : BindingKind
  undeclared : Bool

/-- Where and under which name a symbol is declared. -/
def Symbol.home (s : Symbol) : Home := ⟨s.name, s.scope, s.kind, s.undeclared⟩

namespace ScopeTree

variable {i scope : Nat} {name : String} {t : ScopeTree} {u : ScopeTree} {stack : List Nat}

/-! ## What scopes know -/

/-- Where and under which name a symbol is declared. -/
def home? (t : ScopeTree) (i : Nat) : Option Home := t.symbols[i]?.map Symbol.home

/-- Whether a scope is that of a function, which has its arguments under a name of
their own. -/
def hasArguments (t : ScopeTree) (id : Nat) : Bool := (t.frame? id).any (·.kind == .function)

/-- The search for a name goes on after a scope. -/
def Passes (t : ScopeTree) (name : String) (id : Nat) : Prop :=
  t.declared? name id = none ∧ ¬ (name = "arguments" ∧ t.hasArguments id = true)

/-- A symbol is referred to inside a scope. -/
def Encloses (t : ScopeTree) (id i : Nat) : Prop := ∃ s, t.scopes[id]? = some s ∧ i ∈ s.enclosed

/-- A symbol that is enclosed by a scope belongs there: it is declared in the scope,
or the scope around encloses it, or no scope declares it. -/
def Held (t : ScopeTree) (id i : Nat) : Prop :=
  ∃ h f, t.home? i = some h ∧ t.frame? id = some f ∧
    (t.declared? h.name id = some i ∨
      t.Passes h.name id ∧
        ((∃ parent, f.parent = some parent ∧ t.Encloses parent i)
          ∨ f.parent = none ∧ h.undeclared = true))

theorem Encloses.of_enclosed {id : Nat}
    (h : u.scopes[id]?.map (·.enclosed) = t.scopes[id]?.map (·.enclosed)) (hi : t.Encloses id i) :
    u.Encloses id i := by
  obtain ⟨s, hs, hmem⟩ := hi
  rw [hs] at h
  obtain ⟨s', hs', heq⟩ := Option.map_eq_some_iff.mp h
  exact ⟨s', hs', heq ▸ hmem⟩

theorem declares_iff_home? :
    t.Declares scope name i ↔ ∃ kind, t.home? i = some ⟨name, scope, kind, false⟩ := by
  constructor
  · rintro ⟨s, hs, rfl, rfl, hund⟩
    exact ⟨s.kind, by simp [home?, hs, Symbol.home, hund]⟩
  · rintro ⟨kind, hhome⟩
    obtain ⟨s, hs, heq⟩ := Option.map_eq_some_iff.mp hhome
    simp only [Symbol.home, Home.mk.injEq] at heq
    exact ⟨s, hs, heq.2.1, heq.1, heq.2.2.2⟩

/-! ## Trees that grow -/

/-- What is known in the first tree is known in the second one. -/
structure Grows (t u : ScopeTree) : Prop where
  frame : ∀ id, u.frame? id = t.frame? id
  home : ∀ i h, t.home? i = some h → u.home? i = some h
  declared : ∀ name id i, t.declared? name id = some i → u.declared? name id = some i
  passes : ∀ name id, t.Passes name id → u.Passes name id
  encloses : ∀ id i, t.Encloses id i → u.Encloses id i

namespace Grows

variable {t u v : ScopeTree}

theorem refl (t : ScopeTree) : t.Grows t :=
  ⟨fun _ => rfl, fun _ _ h => h, fun _ _ _ h => h, fun _ _ h => h, fun _ _ h => h⟩

theorem trans (h : t.Grows u) (h' : u.Grows v) : t.Grows v where
  frame id := (h'.frame id).trans (h.frame id)
  home i x hx := h'.home i x (h.home i x hx)
  declared name id i hi := h'.declared name id i (h.declared name id i hi)
  passes name id hp := h'.passes name id (h.passes name id hp)
  encloses id i hi := h'.encloses id i (h.encloses id i hi)

theorem held (h : t.Grows u) {id : Nat} (hi : t.Held id i) : u.Held id i := by
  obtain ⟨x, f, hx, hf, hcase⟩ := hi
  refine ⟨x, f, h.home i x hx, (h.frame id).trans hf, ?_⟩
  rcases hcase with hown | ⟨hpasses, hout⟩
  · exact .inl (h.declared _ _ _ hown)
  · refine .inr ⟨h.passes _ _ hpasses, ?_⟩
    rcases hout with ⟨parent, hparent, hencl⟩ | htop
    · exact .inl ⟨parent, hparent, h.encloses _ _ hencl⟩
    · exact .inr htop

theorem chain (h : t.Grows u) {path : List Nat} (hpath : t.Chain path) : u.Chain path :=
  hpath.mono (.of_eq h.frame)

end Grows

/-- Trees in which names stand for the same symbols. -/
structure Agrees (t u : ScopeTree) : Prop where
  frame : ∀ id, u.frame? id = t.frame? id
  home : ∀ i, u.home? i = t.home? i
  names : ∀ id : Nat, u.scopes[id]?.map (·.names) = t.scopes[id]?.map (·.names)
  globals : u.globals = t.globals

namespace Agrees

variable {t u : ScopeTree}

theorem sameNames (h : t.Agrees u) : SameNames t u where
  names := h.names
  symbols i := by
    have hhome := congrArg (Option.map fun x : Home => (x.scope, x.name, x.undeclared)) (h.home i)
    simpa only [home?, Option.map_map, Function.comp_def, Symbol.home] using hhome

theorem declared? (h : t.Agrees u) (name : String) (id : Nat) :
    u.declared? name id = t.declared? name id :=
  h.sameNames.declared? name id

theorem grows (h : t.Agrees u) (henclosed : ∀ id i, t.Encloses id i → u.Encloses id i) :
    t.Grows u where
  frame := h.frame
  home i _ hx := (h.home i).trans hx
  declared name id _ hi := (h.declared? name id).trans hi
  passes name id hp := by
    unfold Passes hasArguments
    rw [h.declared?, h.frame]
    exact hp
  encloses := henclosed

end Agrees

/-- Trees that differ in nothing that the resolution of names looks at. -/
structure Alike (t u : ScopeTree) : Prop extends t.Agrees u where
  enclosed : ∀ id : Nat, u.scopes[id]?.map (·.enclosed) = t.scopes[id]?.map (·.enclosed)

namespace Alike

variable {t u v : ScopeTree}

theorem refl (t : ScopeTree) : t.Alike t :=
  ⟨⟨fun _ => rfl, fun _ => rfl, fun _ => rfl, rfl⟩, fun _ => rfl⟩

theorem trans (h : t.Alike u) (h' : u.Alike v) : t.Alike v where
  frame id := (h'.frame id).trans (h.frame id)
  home i := (h'.home i).trans (h.home i)
  names id := (h'.names id).trans (h.names id)
  enclosed id := (h'.enclosed id).trans (h.enclosed id)
  globals := h'.globals.trans h.globals

theorem encloses (h : t.Alike u) {id : Nat} (hi : t.Encloses id i) : u.Encloses id i :=
  hi.of_enclosed (h.enclosed id)

theorem grows (h : t.Alike u) : t.Grows u := h.toAgrees.grows fun _ _ => h.encloses

end Alike

theorem alike_modifySymbol (t : ScopeTree) (i : Nat) (f : Symbol → Symbol)
    (hf : ∀ s, (f s).home = s.home) : t.Alike (t.modifySymbol i f) where
  frame _ := rfl
  home := map_getElem?_modifySymbol t i f Symbol.home hf
  names _ := rfl
  enclosed _ := rfl
  globals := rfl

theorem alike_modifyScope (t : ScopeTree) (id : Nat) (f : Scope → Scope)
    (hframe : ∀ s, (f s).frame = s.frame) (hnames : ∀ s, (f s).names = s.names)
    (henclosed : ∀ s, (f s).enclosed = s.enclosed) : t.Alike (t.modifyScope id f) where
  frame := map_getElem?_modifyScope t id f Scope.frame hframe
  home _ := rfl
  names := map_getElem?_modifyScope t id f (·.names) hnames
  enclosed := map_getElem?_modifyScope t id f (·.enclosed) henclosed
  globals := rfl

/-! ## Resolved trees -/

/-- What holds of the scopes and symbols of a program at every moment of the run
that finds references. -/
structure Resolved (t : ScopeTree) : Prop where
  tabled : t.Tabled
  hangs : t.Hangs
  scope_lt : ∀ i h, t.home? i = some h → h.scope < t.scopes.size
  undeclared : ∀ i h, t.home? i = some h →
    (h.undeclared = true ↔ h.kind = .global) ∧ (h.undeclared = true → h.scope = root)
  enclosed : ∀ id i, t.Encloses id i → t.Held id i
  globals : ∀ name i, t.globals.find? name = some i ↔
    ∃ h, t.home? i = some h ∧ h.undeclared = true ∧ h.name = name

namespace Resolved

variable {t u : ScopeTree}

theorem of_agrees (h : t.Resolved) (hsize : u.scopes.size = t.scopes.size) (ha : t.Agrees u)
    (henclosed : ∀ id i, u.Encloses id i → u.Held id i) : u.Resolved where
  tabled := h.tabled.of_same ha.sameNames
  hangs id f hf := h.hangs id f ((ha.frame id).symm.trans hf)
  scope_lt i x hx := by
    rw [hsize]
    exact h.scope_lt i x ((ha.home i).symm.trans hx)
  undeclared i x hx := h.undeclared i x ((ha.home i).symm.trans hx)
  enclosed := henclosed
  globals name i := by
    rw [ha.globals, h.globals]
    simp only [ha.home]

theorem of_alike (h : t.Resolved) (hsize : u.scopes.size = t.scopes.size) (ha : t.Alike u) :
    u.Resolved :=
  h.of_agrees hsize ha.toAgrees fun id i hi =>
    ha.grows.held (h.enclosed id i (hi.of_enclosed (ha.enclosed id).symm))

theorem home?_of_declared? (h : t.Resolved) {id : Nat} (hi : t.declared? name id = some i) :
    ∃ kind, t.home? i = some ⟨name, id, kind, false⟩ :=
  declares_iff_home?.mp (h.tabled.declares hi)

end Resolved

/-! ## New symbols -/

def withArguments (t : ScopeTree) (scope : Nat) : ScopeTree :=
  ((t.modifyScope scope fun s => { s with usesArguments := true }).addSymbol
    "arguments" .arguments scope .nowhere).1

section

variable (t : ScopeTree) (name : String) (kind : BindingKind) (scope : Nat) (loc : Span)

theorem home?_addSymbol (i : Nat) : (t.addSymbol name kind scope loc).1.home? i
      = if i = t.symbols.size then some ⟨name, scope, kind, kind == .global⟩ else t.home? i := by
  unfold home?
  rw [symbols_addSymbol, Array.getElem?_push]
  split <;> rfl

theorem frame?_addSymbol (id : Nat) : (t.addSymbol name kind scope loc).1.frame? id = t.frame? id :=
  map_getElem?_addSymbol t name kind scope loc Scope.frame (fun _ _ => rfl) id

theorem encloses_addSymbol (id i : Nat) :
    (t.addSymbol name kind scope loc).1.Encloses id i ↔ t.Encloses id i := by
  have hview := map_getElem?_addSymbol t name kind scope loc (·.enclosed) (fun _ _ => rfl) id
  exact ⟨.of_enclosed hview.symm, .of_enclosed hview⟩

end

def withGlobal (t : ScopeTree) (name : String) : ScopeTree :=
  let u := (t.addSymbol name .global root .nowhere).1
  { u with globals := u.globals.insert name t.symbols.size }

theorem home?_withArguments (t : ScopeTree) (id i : Nat) :
    (t.withArguments id).home? i
      = if i = t.symbols.size then some ⟨"arguments", id, .arguments, false⟩ else t.home? i :=
  home?_addSymbol _ "arguments" .arguments id .nowhere i

theorem home?_withGlobal (t : ScopeTree) (name : String) (i : Nat) :
    (t.withGlobal name).home? i
      = if i = t.symbols.size then some ⟨name, root, .global, true⟩ else t.home? i :=
  home?_addSymbol t name .global root .nowhere i

theorem globals_withGlobal (t : ScopeTree) (name : String) :
    (t.withGlobal name).globals = t.globals.insert name t.symbols.size :=
  congrArg (NameTable.insert · name t.symbols.size) (globals_addSymbol t _ _ _ _)

theorem lt_size_of_home? {h : Home} (hi : t.home? i = some h) : i < t.symbols.size := by
  obtain ⟨s, hs, _⟩ := Option.map_eq_some_iff.mp hi
  exact (Array.getElem?_eq_some_iff.mp hs).1

/-- A name that is new in a scope disturbs nothing, unless the search for it used to
go on there. -/
theorem grows_addSymbol {kind : BindingKind} (hglobal : kind ≠ .global)
    (hlt : scope < t.scopes.size) (hnew : t.declared? name scope = none)
    (hpasses : ¬ t.Passes name scope) (loc : Span) :
    t.Grows (t.addSymbol name kind scope loc).1 where
  frame := frame?_addSymbol t name kind scope loc
  home i x hx := by
    rw [home?_addSymbol, if_neg (Nat.ne_of_lt (lt_size_of_home? hx))]
    exact hx
  declared m id i hi := by
    rw [declared?_addSymbol t name scope loc hglobal hlt]
    split
    · next h =>
      rw [← h.1, h.2, hnew] at hi
      cases hi
    · exact hi
  passes m id hp := by
    unfold Passes hasArguments
    rw [declared?_addSymbol t name scope loc hglobal hlt, frame?_addSymbol]
    split
    · next h =>
      rw [← h.1, h.2] at hp
      exact absurd hp hpasses
    · exact hp
  encloses id i hi := (encloses_addSymbol t name kind scope loc id i).mpr hi

theorem Resolved.addSymbol (h : t.Resolved) {kind : BindingKind} (hglobal : kind ≠ .global)
    (hlt : scope < t.scopes.size) (hnew : t.declared? name scope = none)
    (hpasses : ¬ t.Passes name scope) (loc : Span) :
    (t.addSymbol name kind scope loc).1.Resolved := by
  have hgrows := grows_addSymbol hglobal hlt hnew hpasses loc
  have hkind : (kind == BindingKind.global) = false := by simpa using hglobal
  exact {
    tabled := h.tabled.addSymbol name hglobal hlt loc
    hangs := fun id f hf => h.hangs id f ((hgrows.frame id).symm.trans hf)
    scope_lt := by
      intro i x hx
      rw [size_scopes_addSymbol]
      rw [home?_addSymbol] at hx
      split at hx
      · cases hx
        exact hlt
      · exact h.scope_lt i x hx
    undeclared := by
      intro i x hx
      rw [home?_addSymbol] at hx
      split at hx
      · cases hx
        simp [hkind, hglobal]
      · exact h.undeclared i x hx
    enclosed := by
      intro id i hi
      exact hgrows.held (h.enclosed id i ((encloses_addSymbol t name kind scope loc id i).mp hi))
    globals := by
      intro m i
      rw [globals_addSymbol, h.globals, home?_addSymbol]
      split
      · next hi =>
        constructor
        · rintro ⟨x, hx, _⟩
          exact absurd (lt_size_of_home? hx) (by omega)
        · rintro ⟨x, hx, hund, _⟩
          cases hx
          simp [hkind] at hund
      · rfl }

theorem Resolved.withArguments (h : t.Resolved) (hlt : scope < t.scopes.size)
    (hnew : t.declared? "arguments" scope = none) (hfunction : t.hasArguments scope = true) :
    (t.withArguments scope).Resolved ∧ t.Grows (t.withArguments scope)
      ∧ (t.withArguments scope).declared? "arguments" scope = some t.symbols.size
      ∧ (t.withArguments scope).home? t.symbols.size
        = some ⟨"arguments", scope, .arguments, false⟩ := by
  have halike : t.Alike (t.modifyScope scope fun s => { s with usesArguments := true }) :=
    alike_modifyScope t scope _ (fun _ => rfl) (fun _ => rfl) (fun _ => rfl)
  generalize hu : (t.modifyScope scope fun s => { s with usesArguments := true }) = u at halike
  have husize : u.scopes.size = t.scopes.size := by rw [← hu, size_scopes_modifyScope]
  have husymbols : u.symbols = t.symbols := by rw [← hu, symbols_modifyScope]
  have hresolved := h.of_alike husize halike
  have hlt' : scope < u.scopes.size := husize ▸ hlt
  have hnew' : u.declared? "arguments" scope = none := by rw [halike.declared?, hnew]
  have hpasses : ¬ u.Passes "arguments" scope := by
    rintro ⟨_, hnot⟩
    refine hnot ⟨rfl, ?_⟩
    rw [hasArguments, halike.frame]
    exact hfunction
  have hargs : t.withArguments scope = (u.addSymbol "arguments" .arguments scope .nowhere).1 := by
    rw [← hu]
    rfl
  rw [hargs, ← husymbols]
  refine ⟨hresolved.addSymbol (by simp) hlt' hnew' hpasses .nowhere,
    halike.grows.trans (grows_addSymbol (by simp) hlt' hnew' hpasses .nowhere), ?_, ?_⟩
  · rw [declared?_addSymbol u _ scope .nowhere (by simp) hlt', if_pos ⟨rfl, rfl⟩]
  · rw [home?_addSymbol, if_pos rfl]
    rfl

theorem Resolved.withGlobal (h : t.Resolved) (hroot : root < t.scopes.size)
    (hnew : t.globals.find? name = none) :
    (t.withGlobal name).Resolved ∧ t.Grows (t.withGlobal name)
      ∧ (t.withGlobal name).home? t.symbols.size = some ⟨name, root, .global, true⟩ := by
  have hhome := home?_withGlobal t name
  have hgrows : t.Grows (t.withGlobal name) := {
    frame := fun _ => rfl
    home := fun i x hx => by
      rw [hhome, if_neg (Nat.ne_of_lt (lt_size_of_home? hx))]
      exact hx
    declared := fun _ _ _ hi => hi
    passes := fun _ _ hp => hp
    encloses := fun _ _ hi => hi }
  refine ⟨?_, hgrows, by rw [hhome, if_pos rfl]⟩
  exact {
    tabled := (h.tabled.addSymbol_global name root .nowhere).of_same ⟨fun _ => rfl, fun _ => rfl⟩
    hangs := h.hangs
    scope_lt := by
      intro i x hx
      rw [hhome] at hx
      split at hx
      · cases hx
        exact hroot
      · exact h.scope_lt i x hx
    undeclared := by
      intro i x hx
      rw [hhome] at hx
      split at hx
      · cases hx
        simp
      · exact h.undeclared i x hx
    enclosed := fun id i hi => hgrows.held (h.enclosed id i hi)
    globals := by
      intro m i
      simp only [hhome]
      rw [globals_withGlobal, NameTable.find?_insert]
      by_cases hm : m = name
      · rw [if_pos hm]
        constructor
        · intro hi
          cases hi
          exact ⟨_, by rw [if_pos rfl], rfl, hm.symm⟩
        · rintro ⟨x, hx, hund, hname⟩
          split at hx
          · next hi => rw [hi]
          · have hfound := (h.globals m i).mpr ⟨x, hx, hund, hname⟩
            rw [hm, hnew] at hfound
            cases hfound
      · rw [if_neg hm, h.globals]
        split
        · next hi =>
          constructor
          · rintro ⟨x, hx, _⟩
            exact absurd (lt_size_of_home? hx) (by omega)
          · rintro ⟨x, hx, _, hname⟩
            cases hx
            exact absurd hname.symm hm
        · rfl }

/-! ## Where a name is found -/

/-- A name, looked for in scopes from the inside out, stands for a symbol. -/
def Located (t : ScopeTree) (name : String) (stack : List Nat) (i : Nat) : Prop :=
  (∃ pre scope post, stack = pre ++ scope :: post ∧ (∀ id ∈ pre, t.Passes name id)
      ∧ t.declared? name scope = some i)
    ∨ (∃ scope kind, t.home? i = some ⟨name, scope, kind, true⟩) ∧ ∀ id ∈ stack, t.Passes name id

theorem Located.mono (h : t.Grows u) (hi : t.Located name stack i) : u.Located name stack i := by
  rcases hi with ⟨pre, scope, post, hstack, hpre, hfound⟩ | ⟨⟨scope, kind, hhome⟩, hstack⟩
  · exact .inl ⟨pre, scope, post, hstack, fun id hid => h.passes _ _ (hpre id hid),
      h.declared _ _ _ hfound⟩
  · exact .inr ⟨⟨scope, kind, h.home _ _ hhome⟩, fun id hid => h.passes _ _ (hstack id hid)⟩

theorem Located.home? (h : t.Resolved) (hi : t.Located name stack i) :
    ∃ x, t.home? i = some x ∧ x.name = name := by
  rcases hi with ⟨pre, scope, post, _, _, hfound⟩ | ⟨⟨scope, kind, hhome⟩, _⟩
  · obtain ⟨kind, hhome⟩ := h.home?_of_declared? hfound
    exact ⟨_, hhome, rfl⟩
  · exact ⟨_, hhome, rfl⟩

end ScopeTree

namespace Referring

variable {e : ScopeEvent} {r : Referring} {stack : List Nat} {t : ScopeTree} {i : Nat} {x : Home}
  {id : Ident} {rest : List ScopeEvent}

/-! ## The search -/

theorem searchScope_cases (t : ScopeTree) (name : String) (scope : Nat) :
    (∃ i, t.declared? name scope = some i ∧ searchScope t name scope = .symbol t i)
      ∨ (t.declared? name scope = none ∧ name = "arguments" ∧ t.hasArguments scope = true
        ∧ searchScope t name scope = .symbol (t.withArguments scope) t.symbols.size)
      ∨ (t.Passes name scope ∧ searchScope t name scope = .nothing) := by
  have hkind : t.scopes[scope]?.any (·.kind == .function) = t.hasArguments scope := by
    unfold hasArguments frame?
    cases t.scopes[scope]? <;> rfl
  unfold searchScope
  rw [hkind]
  cases hd : t.declared? name scope with
  | some i => exact .inl ⟨i, rfl, rfl⟩
  | none =>
    by_cases hargs : name = "arguments" ∧ t.hasArguments scope = true
    · obtain ⟨rfl, hfunction⟩ := hargs
      refine .inr (.inl ⟨rfl, rfl, hfunction, ?_⟩)
      simp [hfunction, withArguments]
    · refine .inr (.inr ⟨⟨hd, hargs⟩, ?_⟩)
      simp only [Bool.and_eq_true, beq_iff_eq, hargs, ↓reduceIte]

section Search

variable {name : String} {pre post : List Nat} {scope : Nat}

theorem search_append (hpre : ∀ id ∈ pre, t.Passes name id) (rest : List Nat) (crossed : Bool) :
    ∃ c, search t name (pre ++ rest) crossed = search t name rest c := by
  induction pre generalizing crossed with
  | nil => exact ⟨crossed, rfl⟩
  | cons id pre ih =>
    have hnothing : searchScope t name id = .nothing := by
      obtain ⟨hnone, hnot⟩ := hpre id (by simp)
      rcases searchScope_cases t name id with ⟨i, hi, _⟩ | ⟨_, hname, hargs, _⟩ | ⟨_, heq⟩
      · rw [hnone] at hi
        cases hi
      · exact absurd ⟨hname, hargs⟩ hnot
      · exact heq
    rw [List.cons_append, search, hnothing]
    exact ih (fun id hid => hpre id (List.mem_cons_of_mem _ hid)) _

/-- The symbol of a name in scopes, after the search in them and among the global
symbols. -/
def locate (t : ScopeTree) (name : String) (stack : List Nat) : ScopeTree × Nat :=
  match search t name stack false with
  | (t, some symbol, _) => (t, symbol)
  | (t, none, _) => globalSymbol t name

/-- A name is found where the search for it ends. -/
theorem locate_found {i : Nat} (hpre : ∀ id ∈ pre, t.Passes name id)
    (hfound : t.declared? name scope = some i) : locate t name (pre ++ scope :: post) = (t, i) := by
  obtain ⟨c, hsearch⟩ := search_append hpre (scope :: post) false
  rw [locate, hsearch, search, searchScope, hfound]

theorem locate_arguments (hpre : ∀ id ∈ pre, t.Passes "arguments" id)
    (hnone : t.declared? "arguments" scope = none) (hargs : t.hasArguments scope = true) :
    locate t "arguments" (pre ++ scope :: post) = (t.withArguments scope, t.symbols.size) := by
  obtain ⟨c, hsearch⟩ := search_append hpre (scope :: post) false
  rcases searchScope_cases t "arguments" scope with ⟨i, hi, _⟩ | ⟨_, _, _, heq⟩ | ⟨hpasses, _⟩
  · rw [hnone] at hi
    cases hi
  · rw [locate, hsearch, search, heq]
  · exact absurd ⟨rfl, hargs⟩ hpasses.2

theorem locate_global (hall : ∀ id ∈ stack, t.Passes name id) :
    locate t name stack = match t.globals.find? name with
      | some i => (t, i)
      | none => (t.withGlobal name, t.symbols.size) := by
  obtain ⟨c, hsearch⟩ := search_append hall [] false
  rw [List.append_nil] at hsearch
  rw [locate, hsearch]
  rfl

theorem passes_split (t : ScopeTree) (name : String) (stack : List Nat) :
    (∀ id ∈ stack, t.Passes name id)
      ∨ ∃ pre scope post, stack = pre ++ scope :: post ∧ (∀ id ∈ pre, t.Passes name id)
        ∧ ¬ t.Passes name scope := by
  induction stack with
  | nil => exact .inl (by simp)
  | cons id rest ih =>
    by_cases hid : t.Passes name id
    · rcases ih with hall | ⟨pre, scope, post, rfl, hpre, hstops⟩
      · exact .inl (by simpa using ⟨hid, hall⟩)
      · exact .inr ⟨id :: pre, scope, post, rfl, by simpa using ⟨hid, hpre⟩, hstops⟩
    · exact .inr ⟨[], id, rest, rfl, by simp, hid⟩

theorem locate_of_not_passes (hpre : ∀ id ∈ pre, t.Passes name id) (hstops : ¬ t.Passes name scope)
    (post : List Nat) :
    (∃ i, t.declared? name scope = some i ∧ locate t name (pre ++ scope :: post) = (t, i))
      ∨ t.declared? name scope = none ∧ name = "arguments" ∧ t.hasArguments scope = true
        ∧ locate t name (pre ++ scope :: post) = (t.withArguments scope, t.symbols.size) := by
  cases hfound : t.declared? name scope with
  | some i => exact .inl ⟨i, rfl, locate_found hpre hfound⟩
  | none =>
    by_cases hargs : name = "arguments" ∧ t.hasArguments scope = true
    · obtain ⟨rfl, hargs⟩ := hargs
      exact .inr ⟨rfl, rfl, hargs, locate_arguments hpre hfound hargs⟩
    · exact absurd ⟨hfound, hargs⟩ hstops

end Search

theorem locate_cases (t : ScopeTree) (name : String) (stack : List Nat) :
    (∃ i, locate t name stack = (t, i))
      ∨ (∃ scope, locate t name stack = (t.withArguments scope, t.symbols.size))
      ∨ locate t name stack = (t.withGlobal name, t.symbols.size) := by
  rcases passes_split t name stack with hall | ⟨pre, scope, post, rfl, hpre, hstops⟩
  · rw [locate_global hall]
    cases t.globals.find? name with
    | some i => exact .inl ⟨i, rfl⟩
    | none => exact .inr (.inr rfl)
  · rcases locate_of_not_passes hpre hstops post with ⟨i, _, heq⟩ | ⟨_, _, _, heq⟩
    · exact .inl ⟨i, heq⟩
    · exact .inr (.inl ⟨scope, heq⟩)

theorem locate_spec (h : t.Resolved) (name : String) (hchain : t.Chain stack) :
    (locate t name stack).1.Resolved ∧ t.Grows (locate t name stack).1
      ∧ (locate t name stack).1.Located name stack (locate t name stack).2 := by
  rcases passes_split t name stack with hall | ⟨pre, scope, post, rfl, hpre, hstops⟩
  · rw [locate_global hall]
    cases hglobal : t.globals.find? name with
    | some i =>
      obtain ⟨⟨_, scope, kind, _⟩, hx, rfl, rfl⟩ := (h.globals name i).mp hglobal
      exact ⟨h, .refl t, .inr ⟨⟨scope, kind, hx⟩, hall⟩⟩
    | none =>
      obtain ⟨hresolved, hgrows, hhome⟩ := h.withGlobal (hchain.lt_size _ hchain.root_mem) hglobal
      exact ⟨hresolved, hgrows, .inr ⟨⟨_, _, hhome⟩, fun id hid => hgrows.passes _ _ (hall id hid)⟩⟩
  · rcases locate_of_not_passes hpre hstops post with ⟨i, hfound, heq⟩ | ⟨hnew, rfl, hargs, heq⟩
    · rw [heq]
      exact ⟨h, .refl t, .inl ⟨pre, scope, post, rfl, hpre, hfound⟩⟩
    · rw [heq]
      obtain ⟨hresolved, hgrows, hfound, _⟩ :=
        h.withArguments (hchain.lt_size scope (by simp)) hnew hargs
      exact ⟨hresolved, hgrows, .inl
        ⟨pre, scope, post, rfl, fun id hid => hgrows.passes _ _ (hpre id hid), hfound⟩⟩

/-! ## Enclosing scopes -/

theorem upTo_append {scope : Nat} {pre post : List Nat} (h : scope ∉ pre) :
    upTo scope (pre ++ scope :: post) = pre ++ [scope] := by
  induction pre with
  | nil => simp [upTo]
  | cons id pre ih =>
    simp only [List.mem_cons, not_or] at h
    have hne : (id == scope) = false := by simpa using fun heq => h.1 heq.symm
    simp [upTo, hne, ih h.2]

theorem upTo_root (hchain : t.Chain stack) : upTo root stack = stack := by
  obtain ⟨pre, rfl⟩ : ∃ pre, stack = pre ++ [root] :=
    List.getLast?_eq_some_iff.mp hchain.getLast?_eq
  exact upTo_append fun hmem => (List.nodup_append.mp hchain.nodup).2.2 _ hmem _ (by simp) rfl

theorem encloses_enclose (t : ScopeTree) (i scope id j : Nat) :
    (enclose t i scope).Encloses id j
      ↔ t.Encloses id j ∨ j = i ∧ id = scope ∧ id < t.scopes.size := by
  unfold ScopeTree.Encloses enclose
  rw [getElem?_scopes_modifyScope]
  by_cases hid : scope = id
  · subst hid
    cases hs : t.scopes[scope]? with
    | none =>
      have hnot : ¬ scope < t.scopes.size := by simpa using hs
      simp [hnot]
    | some s =>
      have hlt := (Array.getElem?_eq_some_iff.mp hs).1
      by_cases hmem : i ∈ s.enclosed
      · simp only [Option.map_some, List.contains_iff_mem, hmem, ↓reduceIte, Option.some.injEq,
          exists_eq_left', hlt, and_true]
        constructor
        · exact .inl
        · rintro (h | rfl)
          · exact h
          · exact hmem
      · simp [hmem, hlt]
  · rw [if_neg hid]
    have hne : ¬ id = scope := fun h => hid h.symm
    simp [hne]

/-- Enclosing a symbol changes nothing but the lists of enclosed symbols. -/
structure Encloser (t u : ScopeTree) (i : Nat) (path : List Nat) : Prop extends t.Agrees u where
  symbols : u.symbols = t.symbols
  size : u.scopes.size = t.scopes.size
  encloses : ∀ id j, u.Encloses id j ↔ t.Encloses id j ∨ j = i ∧ id ∈ path ∧ id < t.scopes.size

theorem encloser_foldl (t : ScopeTree) (i : Nat) (path : List Nat) :
    Encloser t (path.foldl (fun t scope => enclose t i scope) t) i path := by
  induction path generalizing t with
  | nil => exact ⟨⟨fun _ => rfl, fun _ => rfl, fun _ => rfl, rfl⟩, rfl, rfl, by simp⟩
  | cons scope path ih =>
    have hrest := ih (enclose t i scope)
    have hsize : (enclose t i scope).scopes.size = t.scopes.size := by simp [enclose]
    rw [List.foldl_cons]
    exact {
      frame := fun id => (hrest.frame id).trans
        (map_getElem?_modifyScope t scope _ Scope.frame (fun s => by split <;> rfl) id)
      home := hrest.home
      names := fun id => (hrest.names id).trans
        (map_getElem?_modifyScope t scope _ (·.names) (fun s => by split <;> rfl) id)
      symbols := hrest.symbols
      globals := hrest.globals
      size := hrest.size.trans hsize
      encloses := by
        intro id j
        rw [hrest.encloses, encloses_enclose, hsize, List.mem_cons]
        tauto }

namespace Encloser

variable {t u : ScopeTree} {i : Nat} {path : List Nat}

theorem grows (h : Encloser t u i path) : t.Grows u :=
  h.toAgrees.grows fun id j hj => (h.encloses id j).mpr (.inl hj)

/-- A symbol may be enclosed by scopes that find it, and by scopes that do not know
its name if the scopes around them enclose it too. -/
theorem resolved (h : Encloser t u i path) (hresolved : t.Resolved) {x : Home}
    (hx : t.home? i = some x)
    (hpath : ∀ id ∈ path, t.declared? x.name id = some i
      ∨ t.Passes x.name id ∧ ∃ f, t.frame? id = some f ∧
        ((∃ parent, f.parent = some parent ∧ parent ∈ path ∧ parent < t.scopes.size)
          ∨ f.parent = none ∧ x.undeclared = true)) : u.Resolved := by
  refine hresolved.of_agrees h.size h.toAgrees fun id j hj => ?_
  rcases (h.encloses id j).mp hj with hold | ⟨rfl, hmem, hlt⟩
  · exact h.grows.held (hresolved.enclosed id j hold)
  · have hf : t.frame? id = some t.scopes[id].frame := by
      simp [frame?, Array.getElem?_eq_getElem hlt]
    refine ⟨x, _, (h.home j).trans hx, (h.frame id).trans hf, ?_⟩
    rcases hpath id hmem with hown | ⟨hpasses, f, hf', hout⟩
    · exact .inl (h.grows.declared _ _ _ hown)
    · have hsame : f = t.scopes[id].frame := Option.mem_unique hf' hf
      rw [← hsame]
      refine .inr ⟨h.grows.passes _ _ hpasses, ?_⟩
      rcases hout with ⟨parent, hparent, hin, hplt⟩ | htop
      · exact .inl ⟨parent, hparent, (h.encloses parent j).mpr (.inr ⟨rfl, hin, hplt⟩)⟩
      · exact .inr htop

end Encloser

/-- The scopes that a search goes through are those that the symbol is enclosed by
afterwards. -/
theorem resolved_encloseAll (h : t.Resolved) {name : String} (hchain : t.Chain stack)
    (hi : t.Located name stack i) (hx : t.home? i = some x) :
    ((upTo x.scope stack).foldl (fun t scope => enclose t i scope) t).Resolved := by
  refine (encloser_foldl t i _).resolved h hx ?_
  rcases hi with ⟨pre, scope, post, rfl, hpre, hfound⟩ | ⟨⟨scope, kind, hhome⟩, hall⟩
  · obtain ⟨kind, hhome⟩ := h.home?_of_declared? hfound
    have hxeq := Option.mem_unique hx hhome
    subst hxeq
    have hnot : scope ∉ pre := by
      intro hmem
      have hnodup := List.nodup_append.mp hchain.nodup
      exact hnodup.2.2 scope hmem scope (by simp) rfl
    rw [upTo_append hnot]
    intro id hid
    rcases List.mem_append.mp hid with hid | hid
    · obtain ⟨f, parent, hf, hparent, hmem⟩ := hchain.parent_mem id hid
      refine .inr ⟨hpre id hid, f, hf, .inl ⟨parent, hparent, hmem, hchain.lt_size parent ?_⟩⟩
      simp only [List.mem_append, List.mem_cons, List.not_mem_nil, or_false] at hmem ⊢
      tauto
    · rw [List.mem_singleton.mp hid]
      exact .inl hfound
  · have hxeq := Option.mem_unique hx hhome
    subst hxeq
    have hscope : scope = root := (h.undeclared i _ hhome).2 rfl
    simp only [hscope, upTo_root hchain]
    intro id hid
    refine .inr ⟨hall id hid, ?_⟩
    obtain ⟨pre, hsplit⟩ : ∃ pre, stack = pre ++ [root] :=
      List.getLast?_eq_some_iff.mp hchain.getLast?_eq
    subst hsplit
    rcases List.mem_append.mp hid with hpre | hlast
    · obtain ⟨f, parent, hf, hparent, hmem⟩ := hchain.parent_mem id hpre
      exact ⟨f, hf, .inl ⟨parent, hparent, hmem, hchain.lt_size parent hmem⟩⟩
    · rw [List.mem_singleton.mp hlast]
      obtain ⟨f, hf, hparent⟩ := hchain.frame?_root
      exact ⟨f, hf, .inr ⟨hparent, trivial⟩⟩

/-! ## References -/

def settle (r : Referring) (id : Ident) (access : Access) (crossed : Bool) (t : ScopeTree)
    (i : Nat) : ScopeTree :=
  let home := (t.symbols[i]?.map (·.scope)).getD root
  let t := (upTo home r.stack).foldl (fun t scope => enclose t i scope) t
  let t := t.modifySymbol i (noteAccess access id.loc crossed)
  if id.name == "eval" && t.symbols[i]?.any (·.undeclared) then
    t.modifyScope (r.stack.headD root) fun s => { s with usesEval := true }
  else t

theorem scope_of_home? (hx : t.home? i = some x) :
    (t.symbols[i]?.map (·.scope)).getD root = x.scope := by
  obtain ⟨s, hs, rfl⟩ := Option.map_eq_some_iff.mp hx
  rw [hs]
  rfl

theorem refer_eq (r : Referring) (id : Ident) (access : Access) :
    ∃ crossed, r.refer id access =
      let found := locate r.tree id.name r.stack
      ({ r with tree := settle r id access crossed found.1 found.2 }, found.2) := by
  unfold refer locate
  obtain ⟨t, found, crossed⟩ := search r.tree id.name r.stack false
  cases found with
  | some i | none => exact ⟨crossed, rfl⟩

section

variable (r : Referring) (id : Ident) (access : Access) (crossed : Bool) (t : ScopeTree) (i : Nat)

/-- Once the scopes on the way enclose the symbol, a reference sets marks that the resolution
of names does not look at. -/
theorem alike_settle :
    let u := (upTo ((t.symbols[i]?.map (·.scope)).getD root) r.stack).foldl
      (fun t scope => enclose t i scope) t
    u.Alike (settle r id access crossed t i)
      ∧ (settle r id access crossed t i).scopes.size = u.scopes.size := by
  intro u
  have hnoted : u.Alike (u.modifySymbol i (noteAccess access id.loc crossed)) :=
    alike_modifySymbol u i _ fun _ => rfl
  unfold settle
  dsimp only
  split
  · exact ⟨hnoted.trans (alike_modifyScope _ _ _ (fun _ => rfl) (fun _ => rfl)
      fun _ => rfl), size_scopes_modifyScope _ _ _⟩
  · exact ⟨hnoted, rfl⟩

theorem symbols_settle : (settle r id access crossed t i).symbols
      = (t.modifySymbol i (noteAccess access id.loc crossed)).symbols := by
  unfold settle
  dsimp only
  generalize upTo ((t.symbols[i]?.map (·.scope)).getD root) r.stack = path
  have hsymbols := (encloser_foldl t i path).symbols
  split
  · rw [symbols_modifyScope, modifySymbol, hsymbols, modifySymbol]
  · rw [modifySymbol, hsymbols, modifySymbol]

theorem settle_keeps : (∀ j, (settle r id access crossed t i).home? j = t.home? j)
      ∧ (∀ scope, (settle r id access crossed t i).frame? scope = t.frame? scope)
      ∧ (settle r id access crossed t i).globals = t.globals
      ∧ ∀ x, t.home? i = some x → ∀ scope ∈ upTo x.scope r.stack, scope < t.scopes.size →
        (settle r id access crossed t i).Encloses scope i := by
  obtain ⟨halike, _⟩ := alike_settle r id access crossed t i
  have hencloser := encloser_foldl t i
    (upTo ((t.symbols[i]?.map (·.scope)).getD root) r.stack)
  refine ⟨fun j => (halike.home j).trans (hencloser.home j),
    fun scope => (halike.frame scope).trans (hencloser.frame scope),
    halike.globals.trans hencloser.globals, ?_⟩
  intro x hx scope hscope hlt
  rw [← scope_of_home? hx] at hscope
  exact halike.encloses ((hencloser.encloses scope i).mpr (.inr ⟨rfl, hscope, hlt⟩))

end

theorem settle_spec (h : t.Resolved) (hchain : t.Chain r.stack) (hi : t.Located id.name r.stack i)
    (access : Access) (crossed : Bool) :
    (settle r id access crossed t i).Resolved ∧ t.Grows (settle r id access crossed t i) := by
  obtain ⟨x, hx, _⟩ := hi.home? h
  obtain ⟨halike, hsize⟩ := alike_settle r id access crossed t i
  rw [scope_of_home? hx] at halike hsize
  exact ⟨(resolved_encloseAll h hchain hi hx).of_alike hsize halike,
    (encloser_foldl t i _).grows.trans halike.grows⟩

/-- What the run that finds references knows after some events. -/
structure Inv (r : Referring) : Prop where
  resolved : r.tree.Resolved
  chain : r.tree.Chain r.stack
  stack_lt : ∀ id ∈ r.stack, id < r.next

/-- A reference is bound to the symbol that its name stands for. -/
theorem refer_spec (h : r.Inv) (id : Ident) (access : Access) :
    (r.refer id access).1.Inv ∧ r.tree.Grows (r.refer id access).1.tree
      ∧ (r.refer id access).1.tree.Located id.name r.stack (r.refer id access).2
      ∧ (r.refer id access).1.stack = r.stack ∧ (r.refer id access).1.next = r.next := by
  obtain ⟨crossed, heq⟩ := refer_eq r id access
  obtain ⟨hresolved, hgrows, hlocated⟩ := locate_spec h.resolved id.name h.chain
  obtain ⟨hsettled, hgrows'⟩ :=
    settle_spec hresolved (hgrows.chain h.chain) hlocated access crossed
  rw [heq]
  exact ⟨⟨hsettled, (hgrows.trans hgrows').chain h.chain, h.stack_lt⟩, hgrows.trans hgrows',
    hlocated.mono hgrows', rfl, rfl⟩

/-! ## Every event -/

def spot (r : Referring) : Spot := ⟨r.stack, r.next⟩

theorem spot_step (r : Referring) (e : ScopeEvent) : (r.step e).spot = r.spot.step e := by
  cases e with
  | enter kind loc strict => rfl
  | leave => rfl
  | declare id kind exported loop =>
    simp only [step]
    split <;> rfl
  | refer id access exported =>
    rfl
  | this =>
    simp only [step]
    split <;> rfl

theorem Inv.of_alike {s : Referring} (h : r.Inv) (hspot : s.spot = r.spot)
    (hsize : s.tree.scopes.size = r.tree.scopes.size) (ha : r.tree.Alike s.tree) :
    s.Inv ∧ r.tree.Grows s.tree := by
  have hstack : s.stack = r.stack := congrArg Spot.stack hspot
  have hnext : s.next = r.next := congrArg Spot.next hspot
  refine ⟨⟨h.resolved.of_alike hsize ha, ?_, ?_⟩, ha.grows⟩
  · rw [hstack]
    exact ha.grows.chain h.chain
  · rw [hstack, hnext]
    exact h.stack_lt

theorem alike_markExported (t : ScopeTree) (i : Nat) : t.Alike (t.markExported i) :=
  alike_modifySymbol t i _ fun _ => rfl

def searched (r : Referring) : ScopeEvent → ScopeTree
  | .refer id access _ => (r.refer id access).1.tree
  | _ => r.tree

/-- Besides the search, an event changes nothing that the resolution of names looks at. -/
theorem alike_step (r : Referring) (e : ScopeEvent) :
    (r.searched e).Alike (r.step e).tree
      ∧ (r.step e).tree.scopes.size = (r.searched e).scopes.size := by
  cases e with
  | enter | leave => exact ⟨.refl _, rfl⟩
  | declare id kind exported loop =>
    simp only [step]
    split
    · cases loop with
      | false => exact ⟨.refl _, rfl⟩
      | true => exact ⟨alike_modifySymbol _ _ _ fun _ => rfl, rfl⟩
    · exact ⟨.refl _, rfl⟩
  | refer id access exported =>
    cases exported with
    | false => exact ⟨.refl _, rfl⟩
    | true => exact ⟨alike_markExported _ _, rfl⟩
  | this =>
    simp only [step]
    split
    · exact ⟨alike_modifyScope _ _ _ (fun _ => rfl) (fun _ => rfl) fun _ => rfl,
        size_scopes_modifyScope _ _ _⟩
    · exact ⟨.refl _, rfl⟩

theorem Inv.step (h : r.Inv) (hbegins : r.tree.Begins r.spot e)
    (hleave : e = .leave → 1 < r.stack.length) : (r.step e).Inv ∧ r.tree.Grows (r.step e).tree := by
  cases e with
  | enter kind loc strict =>
    obtain ⟨f, hf, _, hparent⟩ := hbegins
    refine ⟨⟨h.resolved, ?_, ?_⟩, .refl _⟩
    · have hchain := h.chain
      obtain ⟨parent, rest, hstack⟩ := List.exists_cons_of_ne_nil h.chain.ne_nil
      simp only [Referring.step, hstack]
      rw [hstack] at hchain
      refine .inner hf ?_ (h.stack_lt parent (by simp [hstack])) hchain
      simpa [spot, hstack] using hparent
    · intro id hid
      simp only [Referring.step, List.mem_cons] at hid ⊢
      rcases hid with rfl | hid
      · omega
      · have := h.stack_lt id hid
        omega
  | leave =>
    refine ⟨⟨h.resolved, ?_, ?_⟩, .refl _⟩
    · have hchain := h.chain
      have hdepth := hleave rfl
      obtain ⟨id, rest, hstack⟩ := List.exists_cons_of_ne_nil h.chain.ne_nil
      simp only [Referring.step, hstack, List.tail_cons]
      rw [hstack] at hchain hdepth
      refine hchain.tail ?_
      rintro rfl
      simp at hdepth
    · intro id hid
      exact h.stack_lt id (List.mem_of_mem_tail hid)
  | declare | this =>
    obtain ⟨halike, hsize⟩ := alike_step r _
    exact h.of_alike (spot_step r _) hsize halike
  | refer id access exported =>
    obtain ⟨hinv, hgrows, _⟩ := refer_spec h id access
    obtain ⟨halike, hsize⟩ := alike_step r (.refer id access exported)
    obtain ⟨hinv', hgrows'⟩ := hinv.of_alike (s := r.step (.refer id access exported)) rfl hsize
      halike
    exact ⟨hinv', hgrows.trans hgrows'⟩

theorem fits_step {fresh : Bool} (h : fits r.stack.length fresh (e :: rest) = true) :
    (e = .leave → 1 < r.stack.length)
      ∧ ∃ fresh', fits (r.step e).stack.length fresh' rest = true := by
  have hstack : (r.step e).stack = (r.spot.step e).stack := congrArg Spot.stack (spot_step r e)
  rw [hstack]
  cases e with
  | enter kind loc strict => exact ⟨by simp, true, h⟩
  | leave =>
    simp only [fits, Bool.and_eq_true, decide_eq_true_eq] at h
    exact ⟨fun _ => h.1, false, by simpa [Spot.step, spot] using h.2⟩
  | declare id kind exported loop =>
    simp only [fits, Bool.and_eq_true] at h
    exact ⟨by simp, false, h.2⟩
  | refer id access exported | this => exact ⟨by simp, false, h⟩

/-- Events through which a search can go on: they fit its stack, and their scopes are there. -/
structure Ready (r : Referring) (events : List ScopeEvent) : Prop where
  inv : r.Inv
  builds : r.tree.Builds r.spot events
  fits : ∃ fresh, fits r.stack.length fresh events = true

namespace Ready

variable {r : Referring} {e : ScopeEvent} {events rest : List ScopeEvent}

theorem leave (h : r.Ready (e :: rest)) : e = .leave → 1 < r.stack.length :=
  (fits_step h.fits.choose_spec).1

theorem step (h : r.Ready (e :: rest)) : (r.step e).Ready rest ∧ r.tree.Grows (r.step e).tree := by
  obtain ⟨hinv, hgrows⟩ := h.inv.step h.builds.1 h.leave
  have hbuilds : (r.step e).tree.Builds (r.step e).spot rest := by
    rw [spot_step]
    exact h.builds.2.mono (.of_eq hgrows.frame)
  exact ⟨⟨hinv, hbuilds, (fits_step h.fits.choose_spec).2⟩, hgrows⟩

theorem run (h : r.Ready events) :
    (events.foldl Referring.step r).Inv ∧ r.tree.Grows (events.foldl Referring.step r).tree := by
  induction events generalizing r with
  | nil => exact ⟨h.inv, .refl _⟩
  | cons e rest ih =>
    obtain ⟨h', hgrows⟩ := h.step
    obtain ⟨hinv, hgrows'⟩ := ih h'
    exact ⟨hinv, hgrows.trans hgrows'⟩

end Ready

/-! ## Exports -/

theorem exports_locate (h : t.Exports) (name : String) (stack : List Nat) :
    (locate t name stack).1.Exports := by
  rcases locate_cases t name stack with ⟨i, heq⟩ | ⟨scope, heq⟩ | heq
  · rw [heq]
    exact h
  · rw [heq]
    have hused : (t.modifyScope scope fun s => { s with usesArguments := true }).Exports := h
    exact hused.addSymbol _ _ _ _
  · rw [heq]
    exact h.addSymbol _ _ _ _

theorem exports_settle (h : t.Exports) (access : Access) (crossed : Bool) (i : Nat) :
    (settle r id access crossed t i).Exports :=
  h.of_same fun j => by
    rw [symbols_settle]
    exact map_getElem?_modifySymbol t i (noteAccess access id.loc crossed) _
      (fun _ => rfl) j

theorem Inv.exports_step (hinv : r.Inv) (h : r.tree.Exports)
    (he : exportsOutermost r.stack.length (e :: rest) = true) :
    (r.step e).tree.Exports ∧ exportsOutermost (r.step e).stack.length rest = true := by
  have hstack : (r.step e).stack = (r.spot.step e).stack := congrArg Spot.stack (spot_step r e)
  rw [hstack]
  cases e with
  | enter kind loc strict => exact ⟨h, he⟩
  | leave =>
    refine ⟨h, ?_⟩
    simpa [exportsOutermost, Spot.step, spot] using he
  | declare id kind exported loop =>
    simp only [exportsOutermost, Bool.and_eq_true] at he
    refine ⟨?_, he.2⟩
    simp only [Referring.step]
    split
    · cases loop with
      | false => exact h
      | true => exact h.of_same (map_getElem?_modifySymbol _ _ _ _ fun _ => rfl)
    · exact h
  | refer id access exported =>
    simp only [exportsOutermost, Bool.and_eq_true] at he
    refine ⟨?_, he.2⟩
    have href : (r.refer id access).1.tree.Exports := by
      obtain ⟨crossed, heq⟩ := refer_eq r id access
      rw [heq]
      exact exports_settle (exports_locate h id.name r.stack) access crossed _
    cases exported with
    | false => exact href
    | true =>
      have hlength : r.stack.length = 1 := by simpa using he.1
      obtain ⟨hinv', hgrows, hlocated, _⟩ := refer_spec hinv id access
      obtain ⟨x, hx, hhome⟩ : ∃ x, (r.refer id access).1.tree.home? (r.refer id access).2 = some x
          ∧ (x.undeclared = true ∨ x.scope = root) := by
        rcases hlocated with ⟨pre, scope, post, hsplit, _, hfound⟩ | ⟨⟨scope, kind, hhome⟩, _⟩
        · obtain ⟨kind, hhome⟩ := hinv'.resolved.home?_of_declared? hfound
          have hmem : scope ∈ r.stack := by simp [hsplit]
          rw [hinv.chain.eq_root_of_length hlength, List.mem_singleton] at hmem
          exact ⟨_, hhome, .inr hmem⟩
        · exact ⟨_, hhome, .inl rfl⟩
      obtain ⟨s, hs, rfl⟩ := Option.map_eq_some_iff.mp hx
      exact href.markExported hs hhome
  | this =>
    refine ⟨?_, he⟩
    simp only [Referring.step]
    split <;> exact h

theorem Ready.exports_run {events : List ScopeEvent} (hr : r.Ready events) (h : r.tree.Exports)
    (hexports : exportsOutermost r.stack.length events = true) :
    (events.foldl Referring.step r).tree.Exports := by
  induction events generalizing r with
  | nil => exact h
  | cons e rest ih =>
    obtain ⟨h', hexports'⟩ := hr.inv.exports_step h hexports
    exact ih hr.step.1 h' hexports'

end Referring

end Laconic
