import Laconic.Proofs.Scope.Resolve

/-!
# Trees with other names

The scopes and symbols of a program and of the same program with other names.  As
long as both runs over the events do the same, the trees differ only in the names
of the symbols (`ScopeTree.Twin`).

In one scope two symbols may get the same name only if one of them gives way to all
other declarations; such a symbol is the first of its scope (`ScopeTree.Apart`).
So what a scope finds under a new name is the symbol that has got it.
-/

namespace Laconic

namespace ScopeTree

variable {t u : ScopeTree}

/-! ## Other names -/

/-- The same scopes and symbols with the names `ν`. -/
structure Twin (ν : Nat → String) (t u : ScopeTree) : Prop where
  frame : ∀ id, u.frame? id = t.frame? id
  home : ∀ i, u.home? i = (t.home? i).map fun x => { x with name := ν i }

/-- Symbols of one scope get different names, but for one that gives way to all other
declarations, which is the first of its scope. -/
structure Apart (ν : Nat → String) (t : ScopeTree) : Prop where
  own : ∀ {i j : Nat} {x y : Home}, t.home? i = some x → t.home? j = some y →
    x.scope = y.scope → x.undeclared = false → y.undeclared = false →
    x.kind.isShadowable = false → y.kind.isShadowable = false → ν i = ν j → i = j
  first : ∀ {i j : Nat} {x y : Home}, t.home? i = some x → t.home? j = some y →
    x.kind.isShadowable = true → x.scope = y.scope → y.undeclared = false → i ≤ j

/-- The symbols of the first tree are in the second one, but may have changed their
kind from one that does not give way to another such kind. -/
def Later (t u : ScopeTree) : Prop :=
  ∀ (i : Nat) (x : Home), t.home? i = some x → ∃ kind,
    u.home? i = some { x with kind } ∧ kind.isShadowable = x.kind.isShadowable

theorem Later.refl (t : ScopeTree) : t.Later t := fun _ x hx => ⟨x.kind, hx, rfl⟩

theorem Later.trans {v : ScopeTree} (h : t.Later u) (h' : u.Later v) : t.Later v := by
  intro i x hx
  obtain ⟨kind, hu, hkind⟩ := h i x hx
  obtain ⟨kind', hv, hkind'⟩ := h' i _ hu
  exact ⟨kind', hv, hkind'.trans hkind⟩

theorem Later.of_eq (h : ∀ i, u.home? i = t.home? i) : t.Later u :=
  fun i x hx => ⟨x.kind, (h i).trans hx, rfl⟩

theorem Apart.of_later {ν : Nat → String} (h : u.Apart ν) (hlater : t.Later u) :
    t.Apart ν where
  own := by
    intro i j x y hx hy hscope hxund hyund hxkind hykind hν
    obtain ⟨kind, hx', hkind⟩ := hlater i x hx
    obtain ⟨kind', hy', hkind'⟩ := hlater j y hy
    exact h.own hx' hy' hscope hxund hyund (hkind.trans hxkind) (hkind'.trans hykind) hν
  first := by
    intro i j x y hx hy hxkind hscope hyund
    obtain ⟨kind, hx', hkind⟩ := hlater i x hx
    obtain ⟨kind', hy', _⟩ := hlater j y hy
    exact h.first hx' hy' (hkind.trans hxkind) hscope hyund

theorem lt_size_symbols_iff (t : ScopeTree) (i : Nat) :
    i < t.symbols.size ↔ ∃ x, t.home? i = some x := by
  constructor
  · intro h
    exact ⟨t.symbols[i].home, by simp [home?, Array.getElem?_eq_getElem h]⟩
  · rintro ⟨x, hx⟩
    exact lt_size_of_home? hx

theorem lt_size_scopes_iff (t : ScopeTree) (id : Nat) :
    id < t.scopes.size ↔ ∃ f, t.frame? id = some f := by
  constructor
  · intro h
    exact ⟨t.scopes[id].frame, by simp [frame?, Array.getElem?_eq_getElem h]⟩
  · rintro ⟨f, hf⟩
    obtain ⟨s, hs, _⟩ := Option.map_eq_some_iff.mp hf
    exact (Array.getElem?_eq_some_iff.mp hs).1

namespace Twin

variable {ν : Nat → String} {t u : ScopeTree} {old : String}
variable {i id : Nat}

variable (h : t.Twin ν u)

include h

theorem home_some {x : Home} (hx : t.home? i = some x) :
    u.home? i = some { x with name := ν i } := by
  rw [h.home, hx]
  rfl

theorem exists_home {y : Home} (hy : u.home? i = some y) :
    ∃ x, t.home? i = some x ∧ y = { x with name := ν i } := by
  rw [h.home] at hy
  obtain ⟨x, hx, rfl⟩ := Option.map_eq_some_iff.mp hy
  exact ⟨x, hx, rfl⟩

theorem size_symbols : u.symbols.size = t.symbols.size := by
  have hiff : ∀ i, i < u.symbols.size ↔ i < t.symbols.size := by
    intro i
    rw [lt_size_symbols_iff, lt_size_symbols_iff, h.home]
    cases t.home? i <;> simp
  have hleft := hiff t.symbols.size
  have hright := hiff u.symbols.size
  omega

theorem size_scopes : u.scopes.size = t.scopes.size := by
  have hiff : ∀ id, id < u.scopes.size ↔ id < t.scopes.size := by
    intro id
    rw [lt_size_scopes_iff, lt_size_scopes_iff, h.frame]
  have hleft := hiff t.scopes.size
  have hright := hiff u.scopes.size
  omega

theorem isVarScope (id : Nat) : u.isVarScope id = t.isVarScope id := by
  rw [isVarScope_eq, isVarScope_eq, h.frame]

theorem hasArguments (id : Nat) : u.hasArguments id = t.hasArguments id := by
  rw [ScopeTree.hasArguments, ScopeTree.hasArguments, h.frame]

theorem of_declared? (htabled : u.Tabled) {name : String} (hi : u.declared? name id = some i) :
    ν i = name ∧ ∃ old kind, t.home? i = some ⟨old, id, kind, false⟩ := by
  obtain ⟨kind, hhome⟩ := declares_iff_home?.mp (htabled.declares hi)
  obtain ⟨x, hx, heq⟩ := h.exists_home hhome
  obtain ⟨old, scope, xkind, und⟩ := x
  simp only [Home.mk.injEq] at heq
  obtain ⟨rfl, rfl, rfl, rfl⟩ := heq
  exact ⟨rfl, old, kind, hx⟩

theorem declares (hi : t.Declares id old i) : u.Declares id (ν i) i := by
  obtain ⟨kind, hhome⟩ := declares_iff_home?.mp hi
  exact declares_iff_home?.mpr ⟨kind, h.home_some hhome⟩

theorem declared?_eq (htabled : u.Tabled) (hapart : t.Apart ν) {kind : BindingKind}
    (hi : t.home? i = some ⟨old, id, kind, false⟩) (hkind : kind.isShadowable = false) :
    u.declared? (ν i) id = some i := by
  obtain ⟨j, hj, hle⟩ := htabled.exists_of_declares (h.declares (declares_iff_home?.mpr ⟨kind, hi⟩))
  obtain ⟨hν, old', kind', hjhome⟩ := h.of_declared? htabled hj
  rw [hj]
  cases hshadow : kind'.isShadowable with
  | false => rw [hapart.own hjhome hi rfl rfl rfl hshadow hkind hν]
  | true =>
    have hge := hapart.first hjhome hi hshadow rfl rfl
    rw [Nat.le_antisymm hge hle]

end Twin

end ScopeTree

/-! ## What declarations keep -/

namespace Declaring

open ScopeTree

variable {d d' : Declaring} {fileName : Span → String} {fresh : Bool} {i : Nat} {kind : BindingKind}
  {loc : Span} {name : String} {e : ScopeEvent} {events : List ScopeEvent}

theorem home?_retree (t : ScopeTree) (i : Nat) (old kind : BindingKind) (loc : Span) (j : Nat) :
    (retree t i old kind loc).home? j
      = (t.home? j).map fun x =>
        if i = j ∧ (kind == .function && old == .var) = true then { x with kind := .function }
        else x := by
  have hredeclare : (t.redeclare i loc).home? j = t.home? j :=
    map_getElem?_modifySymbol t i (fun s => { s with declarations := s.declarations ++ [loc] })
      Symbol.home (fun _ => rfl) j
  unfold retree
  cases hcase : kind == .function && old == .var with
  | false =>
    rw [if_neg (by simp), hredeclare]
    cases t.home? j <;> simp
  | true =>
    rw [if_pos rfl, ← hredeclare]
    unfold home?
    rw [getElem?_symbols_modifySymbol]
    by_cases hij : i = j
    · cases (t.redeclare i loc).symbols[j]? <;> simp [hij, Symbol.home]
    · cases (t.redeclare i loc).symbols[j]? <;> simp [hij]

/-- What a declaration does to the symbols: it adds one, or declares one again, which
may make a function of a variable. -/
theorem Inv.declare?_home (h : d.Inv fresh) (hglobal : kind ≠ .global)
    (hd : d.declare? name kind loc = some (d', i)) :
    (∀ j, j ≠ i → d'.tree.home? j = d.tree.home? j) ∧
      ((i = d.tree.symbols.size ∧ d.tree.home? i = none
          ∧ (∀ j old, d.old? name kind = some (j, old) → old.isShadowable = true)
          ∧ d'.tree.home? i = some ⟨name, d.target kind, kind, false⟩)
        ∨ ∃ old, d.old? name kind = some (i, old) ∧ old.isShadowable = false
          ∧ verdict (d.isHoisted kind) kind old = .again
          ∧ d.tree.home? i = some ⟨name, d.target kind, old, false⟩
          ∧ d'.tree.home? i = some ⟨name, d.target kind,
            if kind == .function && old == .var then .function else old, false⟩) := by
  have hkind : (kind == BindingKind.global) = false := by simpa using hglobal
  obtain ⟨_, ⟨hold, heq⟩ | ⟨old, hold, hshadow, hverdict, heq⟩⟩ := declare?_cases hd
  · cases heq
    refine ⟨fun j hj => ?_, .inl ⟨rfl, ?_, hold, ?_⟩⟩
    · exact (home?_addSymbol d.tree name kind _ loc j).trans (if_neg hj)
    · cases hhome : d.tree.home? d.tree.symbols.size with
      | none => rfl
      | some x => exact absurd (lt_size_of_home? hhome) (Nat.lt_irrefl _)
    · rw [← hkind]
      exact (home?_addSymbol d.tree name kind _ loc _).trans (if_pos rfl)
  · cases heq
    obtain ⟨j, hj, hpair⟩ := Option.bind_eq_some_iff.mp hold
    obtain ⟨s, hs, hpair⟩ := Option.map_eq_some_iff.mp hpair
    simp only [Prod.mk.injEq] at hpair
    obtain ⟨rfl, rfl⟩ := hpair
    obtain ⟨kind', hhome⟩ := declares_iff_home?.mp (h.tabled.declares hj)
    have hsame : s.kind = kind' := by
      rw [home?, hs, Option.map_some] at hhome
      exact congrArg Home.kind (Option.some.inj hhome)
    rw [← hsame] at hhome
    refine ⟨fun k hk => ?_, .inr ⟨s.kind, hold, hshadow, hverdict, hhome, ?_⟩⟩
    · refine (home?_retree d.tree j s.kind kind loc k).trans ?_
      cases d.tree.home? k with
      | none => rfl
      | some x => rw [Option.map_some, if_neg (fun hand => hk hand.1.symm)]
    · refine (home?_retree d.tree j s.kind kind loc j).trans ?_
      rw [hhome, Option.map_some]
      cases kind == .function && s.kind == .var with
      | false => simp
      | true => simp

theorem home?_markExported (t : ScopeTree) (i j : Nat) : (t.markExported i).home? j = t.home? j :=
  (Referring.alike_markExported t i).home j

theorem Inv.later_declare? (h : d.Inv fresh) (hglobal : kind ≠ .global)
    (hd : d.declare? name kind loc = some (d', i)) : d.tree.Later d'.tree := by
  obtain ⟨hother, hcase⟩ := h.declare?_home hglobal hd
  intro j x hx
  by_cases hj : j = i
  · subst hj
    rcases hcase with ⟨_, hnone, _⟩ | ⟨old, _, hshadow, _, hhome, hhome'⟩
    · rw [hnone] at hx
      cases hx
    · rw [hhome] at hx
      cases hx
      refine ⟨_, hhome', ?_⟩
      split
      · exact hshadow.symm ▸ rfl
      · rfl
  · exact ⟨x.kind, (hother j hj).trans hx, rfl⟩

theorem Inv.later_step (h : d.Inv fresh) (he : d.Admits fresh e)
    (hstep : d.step fileName e = .ok d') : d.tree.Later d'.tree := by
  cases e with
  | enter kind loc strict =>
    cases hstep
    exact .of_eq fun i => by rw [home?, symbols_enter, home?]
  | declare id kind exported loop =>
    obtain ⟨d₁, i, hd, rfl⟩ := step_declare hstep
    have hlater := h.later_declare? he.1 hd
    cases exported with
    | false => exact hlater
    | true => exact hlater.trans (.of_eq (home?_markExported d₁.tree i))
  | leave | refer | this =>
    cases hstep
    exact .refl _

theorem Course.later (h : Course fileName fresh events d d') : d.tree.Later d'.tree := by
  induction events generalizing d fresh with
  | nil =>
    cases h.run
    exact .refl _
  | cons e rest ih =>
    obtain ⟨d₁, hstep, hadmits, h₁⟩ := h.step
    exact (h.inv.later_step hadmits hstep).trans (ih h₁)

/-! ## Symbols that no other one hides -/

/-- Only a symbol that gives way is hidden by another one of its scope. -/
def Shown (d : Declaring) : Prop :=
  ∀ (i : Nat) (x : Home), d.tree.home? i = some x → x.kind.isShadowable = false →
    d.tree.declared? x.name x.scope = some i

theorem Inv.shown_declare? (h : d.Inv fresh) (hshown : d.Shown) (hglobal : kind ≠ .global)
    (hd : d.declare? name kind loc = some (d', i)) : d'.Shown := by
  obtain ⟨hother, hcase⟩ := h.declare?_home hglobal hd
  intro j x hx hkind
  rcases hcase with ⟨rfl, _, hold, hhome⟩ | ⟨old, _, hshadow, _, hhome, hhome'⟩
  · have hfound : ∀ id m, d'.tree.declared? m id
        = if d.target kind = id ∧ m = name then some d.tree.symbols.size
          else d.tree.declared? m id := by
      obtain ⟨_, ⟨_, heq⟩ | ⟨old, hold', hnot, _, _⟩⟩ := declare?_cases hd
      · cases heq
        exact declared?_addSymbol d.tree name _ loc hglobal (h.target_lt kind)
      · rw [hold _ _ hold'] at hnot
        cases hnot
    rw [hfound]
    by_cases hj : j = d.tree.symbols.size
    · subst hj
      rw [hhome] at hx
      cases hx
      exact if_pos ⟨rfl, rfl⟩
    · rw [hother j hj] at hx
      have hj' := hshown j x hx hkind
      split
      · next hsame =>
        rw [← hsame.1, hsame.2] at hj'
        obtain ⟨s, hs, rfl⟩ := Option.map_eq_some_iff.mp hx
        have hgives := hold j s.kind (by rw [old?, hj']; simp [hs])
        exact absurd hgives (by rw [show s.kind.isShadowable = false from hkind]; simp)
      · exact hj'
  · have hfound : ∀ m id, d'.tree.declared? m id = d.tree.declared? m id := by
      obtain ⟨_, ⟨hold', _⟩ | ⟨old', _, _, _, heq⟩⟩ := declare?_cases hd
      · rw [hold' _ _ ‹_›] at hshadow
        cases hshadow
      · cases heq
        intro m id
        simp only [retree]
        split <;> rfl
    rw [hfound]
    by_cases hj : j = i
    · subst hj
      rw [hhome'] at hx
      cases hx
      exact hshown j ⟨name, d.target kind, old, false⟩ hhome hshadow
    · rw [hother j hj] at hx
      exact hshown j x hx hkind

theorem Inv.shown_step (h : d.Inv fresh) (he : d.Admits fresh e) (hshown : d.Shown)
    (hstep : d.step fileName e = .ok d') : d'.Shown := by
  cases e with
  | enter kind loc strict =>
    cases hstep
    intro i x hx hkind
    rw [home?, symbols_enter] at hx
    rw [declared?_enter]
    exact hshown i x hx hkind
  | declare id kind exported loop =>
    obtain ⟨d₁, i, hd, rfl⟩ := step_declare hstep
    have hshown' := h.shown_declare? hshown he.1 hd
    cases exported with
    | false => exact hshown'
    | true =>
      intro j x hx hkind
      exact hshown' j x ((home?_markExported d₁.tree i j).symm.trans hx) hkind
  | leave | refer | this =>
    cases hstep
    exact hshown

theorem Course.shown (h : Course fileName fresh events d d') (hshown : d.Shown) : d'.Shown := by
  induction events generalizing d fresh with
  | nil =>
    cases h.run
    exact hshown
  | cons e rest ih =>
    obtain ⟨d₁, hstep, hadmits, h₁⟩ := h.step
    exact ih h₁ (h.inv.shown_step hadmits hshown hstep)

end Declaring

end Laconic
