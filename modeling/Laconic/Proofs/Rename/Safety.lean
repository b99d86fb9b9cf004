import Laconic.Proofs.Grammar.Jumps
import Laconic.Proofs.Rename.Naming

/-!
# Scope safety

In every scope, the symbols that are declared there and the outer symbols that are
referred to there have different names after renaming.  A scope gives its own
symbols names that differ from all others that it knows; two outer symbols differ
in the scope around, which encloses both.

The case that needs an argument is a symbol that keeps its name beside an outer
symbol that gets a new one.  A name that is reserved is given to no symbol.  The
other reasons to keep a name reach outwards: a symbol of the outermost scope has
only global symbols outside, and the scopes around a pinned scope are pinned.
-/

namespace Laconic

open Naming

namespace ScopeTree

/-! ## Symbols in scopes -/

/-- A scope declares a symbol, and no other symbol hides it there. -/
def Owns (t : ScopeTree) (id i : Nat) : Prop := ∃ name, t.declared? name id = some i

/-- A symbol from outside is referred to in a scope. -/
def Imports (t : ScopeTree) (id i : Nat) : Prop :=
  t.Encloses id i ∧ ∃ x, t.home? i = some x ∧ t.Passes x.name id

/-- A symbol is declared in a scope or referred to there. -/
def Sees (t : ScopeTree) (id i : Nat) : Prop := t.Owns id i ∨ t.Encloses id i

namespace Resolved

variable {t : ScopeTree} (h : t.Resolved)
variable {i id : Nat}

include h

theorem owns_iff {s : Scope} (hs : t.scopes[id]? = some s) :
    t.Owns id i ↔ i ∈ s.names.map (·.2) := by
  constructor
  · rintro ⟨name, hname⟩
    exact List.mem_map.mpr ⟨(name, i), (h.tabled.mem_names_iff hs name i).mpr hname, rfl⟩
  · intro hi
    obtain ⟨⟨name, j⟩, he, rfl⟩ := List.mem_map.mp hi
    exact ⟨name, (h.tabled.mem_names_iff hs name j).mp he⟩

theorem home?_of_owns (hi : t.Owns id i) :
    ∃ x, t.home? i = some x ∧ x.scope = id ∧ x.undeclared = false
      ∧ t.declared? x.name id = some i := by
  obtain ⟨name, hname⟩ := hi
  obtain ⟨kind, hhome⟩ := h.home?_of_declared? hname
  exact ⟨_, hhome, rfl, rfl, hname⟩

theorem home?_of_sees (hi : t.Sees id i) : ∃ x, t.home? i = some x := by
  rcases hi with hown | hencl
  · obtain ⟨x, hx, _⟩ := h.home?_of_owns hown
    exact ⟨x, hx⟩
  · obtain ⟨x, _, hx, _⟩ := h.enclosed id i hencl
    exact ⟨x, hx⟩

theorem owns_or_imports (hi : t.Sees id i) : t.Owns id i ∨ t.Imports id i := by
  rcases hi with hown | hencl
  · exact .inl hown
  · obtain ⟨x, f, hx, _, hcase⟩ := h.enclosed id i hencl
    rcases hcase with hown | ⟨hpasses, _⟩
    · exact .inl ⟨x.name, hown⟩
    · exact .inr ⟨hencl, x, hx, hpasses⟩

theorem imports_cases (hi : t.Imports id i) :
    ∃ x f, t.home? i = some x ∧ t.Passes x.name id ∧ t.frame? id = some f ∧
      ((∃ parent < id, f.parent = some parent ∧ t.Encloses parent i)
        ∨ f.parent = none ∧ id = root ∧ x.undeclared = true) := by
  obtain ⟨hencl, x, hx, hpasses⟩ := hi
  obtain ⟨y, f, hy, hf, hcase⟩ := h.enclosed id i hencl
  cases Option.mem_unique hx hy
  refine ⟨x, f, hx, hpasses, hf, ?_⟩
  rcases hcase with hown | ⟨_, ⟨parent, hparent, hin⟩ | ⟨hnone, hund⟩⟩
  · rw [hpasses.1] at hown
    cases hown
  · rcases h.hangs id f hf with ⟨_, hnone⟩ | ⟨p, hlt, hsome⟩
    · rw [hnone] at hparent
      cases hparent
    · rw [hsome] at hparent
      cases hparent
      exact .inl ⟨_, hlt, hsome, hin⟩
  · rcases h.hangs id f hf with ⟨hroot, _⟩ | ⟨p, _, hsome⟩
    · exact .inr ⟨hnone, hroot, hund⟩
    · rw [hnone] at hsome
      cases hsome

/-- An enclosed symbol belongs to an outer scope or the scope itself, which is pinned
if the scope is, or is global. -/
theorem scope_of_encloses (hpins : t.PinsOutward) (id i : Nat) (hi : t.Encloses id i) :
    ∃ x, t.home? i = some x ∧
      (x.undeclared = true ∨ x.scope ≤ id ∧ (t.pins id = true → t.pins x.scope = true)) := by
  induction id using Nat.strong_induction_on with
  | _ id ih =>
    rcases h.owns_or_imports (.inr hi) with hown | himports
    · obtain ⟨x, hx, hscope, _⟩ := h.home?_of_owns hown
      exact ⟨x, hx, .inr ⟨Nat.le_of_eq hscope, fun hp => hscope ▸ hp⟩⟩
    · obtain ⟨x, f, hx, _, hf, ⟨parent, hlt, hparent, hin⟩ | ⟨_, _, hund⟩⟩ :=
        h.imports_cases himports
      · obtain ⟨y, hy, hcase⟩ := ih parent hlt hin
        refine ⟨y, hy, ?_⟩
        rcases hcase with hund | ⟨hle, hpinned⟩
        · exact .inl hund
        · refine .inr ⟨by omega, fun hp => hpinned ?_⟩
          exact hpins id parent (Option.bind_eq_some_iff.mpr ⟨f, hf, hparent⟩) hp
      · exact ⟨x, hx, .inl hund⟩

/-- A symbol from outside belongs to an outer scope, which is pinned if the scope is,
or is global. -/
theorem scope_of_imports (hpins : t.PinsOutward) (hi : t.Imports id i) :
    ∃ x, t.home? i = some x ∧ t.Passes x.name id ∧
      (x.undeclared = true
        ∨ x.scope < id ∧ id ≠ root ∧ (t.pins id = true → t.pins x.scope = true)) := by
  obtain ⟨x, f, hx, hpasses, hf, ⟨parent, hlt, hparent, hin⟩ | ⟨_, _, hund⟩⟩ := h.imports_cases hi
  · obtain ⟨y, hy, hcase⟩ := h.scope_of_encloses hpins parent i hin
    cases Option.mem_unique hx hy
    refine ⟨x, hx, hpasses, ?_⟩
    rcases hcase with hund | ⟨hle, hpinned⟩
    · exact .inl hund
    · refine .inr ⟨by omega, ?_, fun hp => hpinned ?_⟩
      · intro hroot
        rw [hroot] at hlt
        exact Nat.not_lt_zero _ hlt
      · exact hpins id parent (Option.bind_eq_some_iff.mpr ⟨f, hf, hparent⟩) hp
  · exact ⟨x, hx, hpasses, .inl hund⟩

end Resolved

end ScopeTree

namespace Naming

variable {o : RenameOptions}

/-! ## Symbols that get new names -/

/-- The symbols of a tree that get new names. -/
def eligibleIn (o : RenameOptions) (t : ScopeTree) : Eligible :=
  t.symbols.mapIdx fun id s => o.renames t id s

/-- A tree in which no symbol has a new name. -/
def cleared (t : ScopeTree) : ScopeTree :=
  { t with symbols := t.symbols.map unnamed }

theorem isEligible_eligibleIn (o : RenameOptions) (t : ScopeTree) (i : Nat) :
    isEligible (eligibleIn o t) i = t.symbols[i]?.any (o.renames t i) := by
  unfold isEligible eligibleIn
  rw [Array.getD_eq_getD_getElem?, Array.getElem?_mapIdx]
  cases t.symbols[i]? <;> rfl

theorem getElem?_symbols_cleared (t : ScopeTree) (i : Nat) :
    (cleared t).symbols[i]? = t.symbols[i]?.map unnamed := by
  simp [cleared]

theorem renamesOnly_cleared (t : ScopeTree) : RenamesOnly (fun _ => True) t (cleared t) where
  scopes := rfl
  globals := rfl
  symbol i := by
    rw [getElem?_symbols_cleared]
    cases t.symbols[i]? <;> rfl
  other i hi := absurd trivial hi

theorem alike_cleared (t : ScopeTree) : t.Alike (cleared t) := (renamesOnly_cleared t).alike

/-- The scopes of a program after renaming. -/
def namedTree (o : RenameOptions) (p : Program) (t : ScopeTree) : ScopeTree :=
  (renameVariables o p t []).2.1

section Outcome

variable {o : RenameOptions} {t : ScopeTree}

theorem ownHome_cleared (h : t.Resolved) : OwnHome (eligibleIn o t) (cleared t) := by
  intro id i hi
  obtain ⟨s, hs, hnames, _⟩ := mem_own.mp hi
  obtain ⟨x, hx, hscope, hund, _⟩ := h.home?_of_owns ((h.owns_iff hs).mpr hnames)
  exact ⟨x, ((alike_cleared t).home i).trans hx, hscope, hund⟩

theorem newName_cleared (i : Nat) (s : Symbol) (hs : (cleared t).symbols[i]? = some s) :
    s.newName = none := by
  rw [getElem?_symbols_cleared] at hs
  obtain ⟨_, _, rfl⟩ := Option.map_eq_some_iff.mp hs
  rfl

theorem outcome_namedTree (h : t.Resolved) (p : Program) :
    Outcome o (eligibleIn o t) (cleared t) (namedTree o p t) :=
  outcome_stage (Alphabet.complete_ofFrequency _) o (ownHome_cleared h) newName_cleared

theorem mem_own_iff (h : t.Resolved) {id i : Nat} :
    i ∈ own (eligibleIn o t) (cleared t) id
      ↔ t.Owns id i ∧ isEligible (eligibleIn o t) i = true := by
  rw [mem_own]
  constructor
  · rintro ⟨s, hs, hnames, helig⟩
    exact ⟨(h.owns_iff hs).mpr hnames, helig⟩
  · rintro ⟨⟨name, hname⟩, helig⟩
    obtain ⟨s, hs, _⟩ := Option.bind_eq_some_iff.mp hname
    exact ⟨s, hs, (h.owns_iff hs).mp ⟨name, hname⟩, helig⟩

end Outcome

/-- The names of functions or of classes are kept, and this is the name of one. -/
def keepsNamesOf (o : RenameOptions) : BindingKind → Bool
  | .function | .functionName => o.keepFunctionNames
  | .class | .className => o.keepClassNames
  | _ => false

theorem keepsNamesOf_eq_false (hfunctions : o.keepFunctionNames = false)
    (hclasses : o.keepClassNames = false) (kind : BindingKind) : keepsNamesOf o kind = false := by
  cases kind <;> first | rfl | exact hfunctions | exact hclasses

theorem renames_eq (o : RenameOptions) (t : ScopeTree) (i : Nat) (s : Symbol) :
    o.renames t i s = (!s.undeclared && !s.exported && s.kind != .global && s.kind != .arguments
      && !o.reserved.contains s.name && (o.toplevel || s.scope != ScopeTree.root)
      && (o.eval || !t.isPinned i) && !keepsNamesOf o s.kind) := by
  unfold RenameOptions.renames keepsNamesOf
  cases s.kind <;> rfl

/-- A symbol that keeps its name though its scope is neither the outermost one nor
pinned has a reserved name, or it is a function or a class. -/
theorem reserved_of_not_renames {t : ScopeTree} {i : Nat} {s : Symbol}
    (hkeeps : keepsNamesOf o s.kind = false) (hexports : t.Exports) (hs : t.symbols[i]? = some s)
    (hund : s.undeclared = false) (hglobal : s.kind ≠ .global) (harguments : s.kind ≠ .arguments)
    (hroot : s.scope ≠ ScopeTree.root) (hstays : o.renames t i s = false)
    (hpinned : o.eval = true ∨ t.pins s.scope = false) : s.name ∈ o.reserved := by
  have hexported : s.exported = false := by
    cases hexported : s.exported with
    | false => rfl
    | true =>
      rcases hexports i s hs hexported with h | h
      · rw [hund] at h
        cases h
      · exact absurd h hroot
  have hfree : (o.eval || !t.isPinned i) = true := by
    have hsame : t.isPinned i = t.pins s.scope := by
      simp [ScopeTree.isPinned, hs, ScopeTree.pins]
    rcases hpinned with h | h
    · simp [h]
    · simp [hsame, h]
  have hscope : (s.scope != ScopeTree.root) = true := by simpa using hroot
  rw [renames_eq, hkeeps, hfree, hscope, hexported, hund] at hstays
  simpa [hglobal, harguments] using hstays

/-! ## Different names -/

section Differ

variable {o : RenameOptions} {p : Program} {t : ScopeTree}
variable {i id j : Nat} {u : ScopeTree} {x y : Home}

/-- The name that a symbol is written with. -/
def nameOf? (t : ScopeTree) (i : Nat) : Option String := t.symbols[i]?.map Symbol.outputName

theorem nameOf?_of_newName? {x : String} (h : newName? u i = some x) : nameOf? u i = some x := by
  obtain ⟨s, hs, hname⟩ := Option.bind_eq_some_iff.mp h
  simp [nameOf?, hs, Symbol.outputName, hname]

theorem nameOf?_of_none (hx : u.home? i = some x) (h : newName? u i = none) :
    nameOf? u i = some x.name := by
  obtain ⟨s, hs, rfl⟩ := Option.map_eq_some_iff.mp hx
  have hname : s.newName = none := by simpa [newName?, hs] using h
  simp [nameOf?, hs, Symbol.outputName, hname, Symbol.home]

theorem home?_namedTree (h : t.Resolved) (i : Nat) : (namedTree o p t).home? i = t.home? i :=
  ((alike_cleared t).trans (outcome_namedTree h p).only.alike).home i

theorem encloses_namedTree (h : t.Resolved) :
    (namedTree o p t).Encloses id i ↔ t.Encloses id i := by
  unfold ScopeTree.Encloses
  rw [(outcome_namedTree (o := o) h p).only.scopes]
  rfl

theorem newName?_namedTree_eq_none (h : t.Resolved)
    (hi : ∀ id, ¬ (t.Owns id i ∧ isEligible (eligibleIn o t) i = true)) :
    newName? (namedTree o p t) i = none := by
  have honly := (outcome_namedTree (o := o) h p).only
  rw [honly.newName?]
  · rw [newName?, getElem?_symbols_cleared]
    cases t.symbols[i]? <;> rfl
  · rintro ⟨id, hid⟩
    exact hi id ((mem_own_iff h).mp hid)

theorem not_pinned_of_eligible (hx : t.home? i = some x)
    (helig : isEligible (eligibleIn o t) i = true) (heval : o.eval = false) :
    t.pins x.scope = false := by
  obtain ⟨s, hs, rfl⟩ := Option.map_eq_some_iff.mp hx
  rw [isEligible_eligibleIn, hs, Option.any_some, renames_eq] at helig
  have hpinned : t.isPinned i = t.pins s.scope := by
    simp [ScopeTree.isPinned, hs, ScopeTree.pins]
  simp only [Bool.and_eq_true, hpinned, heval, Bool.false_or, Bool.not_eq_true'] at helig
  exact helig.1.2

theorem nameOf?_of_stays (h : t.Resolved) (hx : t.home? i = some x)
    (hstays : isEligible (eligibleIn o t) i = false) :
    nameOf? (namedTree o p t) i = some x.name := by
  refine nameOf?_of_none ((home?_namedTree h i).trans hx) (newName?_namedTree_eq_none h ?_)
  rintro _ ⟨_, helig⟩
  rw [hstays] at helig
  cases helig

theorem new_ne_kept (h : t.Resolved) (hi : t.Owns id i)
    (helig : isEligible (eligibleIn o t) i = true) (hj : t.Owns id j)
    (hstays : isEligible (eligibleIn o t) j = false) (hy : t.home? j = some y) :
    nameOf? (namedTree o p t) i ≠ some y.name := by
  have hout := outcome_namedTree (o := o) h p
  have hmem := (mem_own_iff h).mpr ⟨hi, helig⟩
  obtain ⟨new, hnew, _⟩ := hout.name id i hmem
  obtain ⟨s, hs, _⟩ := mem_own.mp hmem
  obtain ⟨b, hb, rfl⟩ := Option.map_eq_some_iff.mp hy
  have hb' : (cleared t).symbols[j]? = some (unnamed b) := by
    rw [getElem?_symbols_cleared, hb]
    rfl
  rw [nameOf?_of_newName? hnew, ← hnew]
  exact hout.kept id s hs i hmem j ((h.owns_iff hs).mp hj) hstays (unnamed b) hb'

theorem new_ne_imported (h : t.Resolved) (hpins : t.PinsOutward) (hi : t.Owns id i)
    (helig : isEligible (eligibleIn o t) i = true) (hj : t.Imports id j) :
    nameOf? (namedTree o p t) i ≠ nameOf? (namedTree o p t) j := by
  have hout := outcome_namedTree (o := o) h p
  have hmem := (mem_own_iff h).mpr ⟨hi, helig⟩
  obtain ⟨new, hnew, _⟩ := hout.name id i hmem
  obtain ⟨y, hy, _, hcase⟩ := h.scope_of_imports hpins hj
  obtain ⟨b, hb, rfl⟩ := Option.map_eq_some_iff.mp
    ((home?_namedTree (o := o) (p := p) h j).trans hy)
  obtain ⟨s, hs, hencl⟩ := hj.1
  have hne := hout.outer id s hs i hmem j hencl b hb (hcase.imp_right And.left)
  rw [nameOf?_of_newName? hnew, ← hnew]
  simpa [nameOf?, hb] using hne

/-- A function or a class that keeps its name catches the references to an outer symbol:
its scope refers to that symbol, which got the very name that is kept. -/
def Catches (o : RenameOptions) (u : ScopeTree) (i j : Nat) : Prop :=
  ∃ x y, u.home? i = some x ∧ u.home? j = some y ∧ keepsNamesOf o x.kind = true ∧
    newName? u i = none ∧ newName? u j = some x.name ∧ y.scope < x.scope ∧ u.Encloses x.scope j

theorem not_catches (hfunctions : o.keepFunctionNames = false)
    (hclasses : o.keepClassNames = false) :
    ¬ Catches o u i j := by
  rintro ⟨x, _, _, _, hkeeps, _⟩
  rw [keepsNamesOf_eq_false hfunctions hclasses] at hkeeps
  cases hkeeps

theorem Catches.nameOf?_eq (h : Catches o u i j) : nameOf? u i = nameOf? u j := by
  obtain ⟨x, y, hx, _, _, hnone, hnew, _⟩ := h
  rw [nameOf?_of_none hx hnone, nameOf?_of_newName? hnew]

/-- A name of a scope that stays is none of the names that symbols from outside have,
unless it is kept as the name of a function or a class.  If the outer symbol gets a new
name, the scope is neither the outermost one nor pinned, so that only a reserved name
can have stayed in it otherwise. -/
theorem catches_of_kept_eq_imported (h : t.Resolved) (hpins : t.PinsOutward) (hexports : t.Exports)
    (hi : t.Owns id i) (hx : t.home? i = some x) (hkind : x.kind ≠ .arguments)
    (hstays : isEligible (eligibleIn o t) i = false) (hj : t.Imports id j)
    (heq : nameOf? (namedTree o p t) j = some x.name) : Catches o (namedTree o p t) i j := by
  obtain ⟨x', hx', hscope, hund, hfound⟩ := h.home?_of_owns hi
  cases Option.mem_unique hx hx'
  obtain ⟨y, hy, hpasses, hcase⟩ := h.scope_of_imports hpins hj
  cases hjnew : newName? (namedTree o p t) j with
  | none =>
    rw [nameOf?_of_none ((home?_namedTree h j).trans hy) hjnew] at heq
    rw [← Option.some.inj heq, hpasses.1] at hfound
    cases hfound
  | some new =>
    rw [nameOf?_of_newName? hjnew] at heq
    obtain ⟨home, hjown, hjelig⟩ : ∃ home, t.Owns home j
        ∧ isEligible (eligibleIn o t) j = true := by
      by_contra hnot
      rw [newName?_namedTree_eq_none h fun home hhome => hnot ⟨home, hhome⟩] at hjnew
      cases hjnew
    obtain ⟨y', hy', _, hyund, _⟩ := h.home?_of_owns hjown
    cases Option.mem_unique hy hy'
    obtain ⟨hlt, hroot, hpinned⟩ := hcase.resolve_left (by rw [hyund]; simp)
    cases hkeeps : keepsNamesOf o x.kind with
    | true =>
      have hnone : newName? (namedTree o p t) i = none :=
        newName?_namedTree_eq_none h fun _ howns => by simp [hstays] at howns
      have hencloses : (namedTree o p t).Encloses x.scope j :=
        hscope ▸ (encloses_namedTree h).mpr hj.1
      exact ⟨x, y, (home?_namedTree h i).trans hx, (home?_namedTree h j).trans hy, hkeeps, hnone,
        hjnew.trans heq, hscope ▸ hlt, hencloses⟩
    | false =>
      obtain ⟨a, ha, rfl⟩ := Option.map_eq_some_iff.mp hx
      have hscope : a.scope = id := hscope
      have hrenames : o.renames t i a = false := by
        simpa [isEligible_eligibleIn, ha] using hstays
      have hfree : o.eval = true ∨ t.pins a.scope = false := by
        cases heval : o.eval with
        | true => exact .inl rfl
        | false =>
          have hnotpinned := not_pinned_of_eligible hy hjelig heval
          refine .inr (Bool.eq_false_iff.mpr fun hpin => ?_)
          rw [hpinned (hscope ▸ hpin)] at hnotpinned
          cases hnotpinned
      have hglobal : a.kind ≠ .global := by
        intro hk
        have hundeclared := ((h.undeclared i _ hx).1).mpr hk
        rw [hund] at hundeclared
        cases hundeclared
      have hreserved := reserved_of_not_renames hkeeps hexports ha hund hglobal hkind
        (hscope ▸ hroot) hrenames hfree
      obtain ⟨new', hnew', hnot⟩ :=
        (outcome_namedTree (o := o) h p).name home j ((mem_own_iff h).mpr ⟨hjown, hjelig⟩)
      cases Option.mem_unique hjnew hnew'
      exact absurd (Option.some.inj heq ▸ hreserved) hnot

/-- In a scope, a symbol that is declared there has the name of another symbol only if it
catches the references to that one.  Only the arguments of a function may have the name of
an outer symbol, since no declaration shows them. -/
theorem catches_of_own_eq (h : t.Resolved) (hpins : t.PinsOutward) (hexports : t.Exports)
    (hi : t.Owns id i) (hx : t.home? i = some x) (hkind : x.kind ≠ .arguments) (hj : t.Sees id j)
    (hij : i ≠ j) (heq : nameOf? (namedTree o p t) i = nameOf? (namedTree o p t) j) :
    Catches o (namedTree o p t) i j := by
  rcases h.owns_or_imports hj with hjown | hjimports
  · refine absurd heq ?_
    obtain ⟨y, hy, _, _, hjfound⟩ := h.home?_of_owns hjown
    cases helig : isEligible (eligibleIn o t) i with
    | true =>
      cases hjelig : isEligible (eligibleIn o t) j with
      | true =>
        have hout := outcome_namedTree (o := o) h p
        have hmem := (mem_own_iff h).mpr ⟨hi, helig⟩
        have hjmem := (mem_own_iff h).mpr ⟨hjown, hjelig⟩
        obtain ⟨new, hnew, _⟩ := hout.name id i hmem
        obtain ⟨new', hnew', _⟩ := hout.name id j hjmem
        rw [nameOf?_of_newName? hnew, nameOf?_of_newName? hnew', ← hnew, ← hnew']
        exact hout.differ id i hmem j hjmem hij
      | false =>
        rw [nameOf?_of_stays h hy hjelig]
        exact new_ne_kept h hi helig hjown hjelig hy
    | false =>
      rw [nameOf?_of_stays h hx helig]
      cases hjelig : isEligible (eligibleIn o t) j with
      | true => exact (new_ne_kept h hjown hjelig hi helig hx).symm
      | false =>
        rw [nameOf?_of_stays h hy hjelig]
        obtain ⟨x', hx', _, _, hfound⟩ := h.home?_of_owns hi
        cases Option.mem_unique hx hx'
        intro hname
        rw [Option.some.inj hname, hjfound] at hfound
        exact hij (Option.some.inj hfound).symm
  · cases helig : isEligible (eligibleIn o t) i with
    | true => exact absurd heq (new_ne_imported h hpins hi helig hjimports)
    | false =>
      rw [nameOf?_of_stays h hx helig] at heq
      exact catches_of_kept_eq_imported h hpins hexports hi hx hkind helig hjimports heq.symm

theorem own_ne_visible (h : t.Resolved) (hpins : t.PinsOutward) (hexports : t.Exports)
    (hfunctions : o.keepFunctionNames = false) (hclasses : o.keepClassNames = false)
    (hi : t.Owns id i) (hx : t.home? i = some x) (hkind : x.kind ≠ .arguments) (hj : t.Sees id j)
    (hij : i ≠ j) : nameOf? (namedTree o p t) i ≠ nameOf? (namedTree o p t) j :=
  fun heq => not_catches hfunctions hclasses
    (catches_of_own_eq h hpins hexports hi hx hkind hj hij heq)

/-- In a scope, two symbols have the same name only if one of them catches the references to
the other, but for the arguments of functions.  Two symbols from outside are told apart by
the scope around. -/
theorem catches_of_visible_eq (h : t.Resolved) (hpins : t.PinsOutward) (hexports : t.Exports)
    (id : Nat) (hi : t.Sees id i) (hj : t.Sees id j) (hx : t.home? i = some x)
    (hy : t.home? j = some y) (hxkind : x.kind ≠ .arguments) (hykind : y.kind ≠ .arguments)
    (hij : i ≠ j) (heq : nameOf? (namedTree o p t) i = nameOf? (namedTree o p t) j) :
    Catches o (namedTree o p t) i j ∨ Catches o (namedTree o p t) j i := by
  induction id using Nat.strong_induction_on with
  | _ id ih =>
    rcases h.owns_or_imports hi with hiown | hiimports
    · exact .inl (catches_of_own_eq h hpins hexports hiown hx hxkind hj hij heq)
    rcases h.owns_or_imports hj with hjown | hjimports
    · exact .inr (catches_of_own_eq h hpins hexports hjown hy hykind hi hij.symm heq.symm)
    obtain ⟨x', f, hx', _, hf, hicase⟩ := h.imports_cases hiimports
    obtain ⟨y', f', hy', _, hf', hjcase⟩ := h.imports_cases hjimports
    cases Option.mem_unique hf hf'
    cases Option.mem_unique hx hx'
    cases Option.mem_unique hy hy'
    rcases hicase with ⟨parent, hlt, hparent, hiin⟩ | ⟨hnone, _, hxund⟩
    · rcases hjcase with ⟨parent', _, hparent', hjin⟩ | ⟨hnone, _⟩
      · cases Option.mem_unique hparent hparent'
        exact ih parent hlt (.inr hiin) (.inr hjin)
      · rw [hnone] at hparent
        cases hparent
    · rcases hjcase with ⟨parent', _, hparent', _⟩ | ⟨_, _, hyund⟩
      · rw [hnone] at hparent'
        cases hparent'
      -- both are global, and there is one global symbol of each name
      have hglobal : ∀ k z, t.home? k = some z → z.undeclared = true →
          nameOf? (namedTree o p t) k = some z.name := by
        intro k z hz hzund
        refine nameOf?_of_none ((home?_namedTree h k).trans hz) (newName?_namedTree_eq_none h ?_)
        rintro home ⟨hown, _⟩
        obtain ⟨z', hz', _, hdeclared, _⟩ := h.home?_of_owns hown
        cases Option.mem_unique hz hz'
        rw [hzund] at hdeclared
        cases hdeclared
      rw [hglobal i x hx hxund, hglobal j y hy hyund] at heq
      have hfirst := (h.globals x.name i).mpr ⟨x, hx, hxund, rfl⟩
      have hsecond := (h.globals y.name j).mpr ⟨y, hy, hyund, rfl⟩
      rw [Option.some.inj heq, hsecond] at hfirst
      exact absurd (Option.some.inj hfirst).symm hij

theorem exists_symbol_of_mem (h : t.Resolved) (o : RenameOptions) (p : Program) {s : Scope}
    (hs : t.scopes[id]? = some s) (hi : i ∈ s.names.map (·.2) ++ s.enclosed) :
    ∃ a, (namedTree o p t).symbols[i]? = some a ∧ t.home? i = some a.home ∧ t.Sees id i := by
  have hsees : t.Sees id i :=
    (List.mem_append.mp hi).imp (h.owns_iff hs).mpr fun hencl => ⟨s, hs, hencl⟩
  obtain ⟨x, hx⟩ := h.home?_of_sees hsees
  obtain ⟨a, ha, rfl⟩ := Option.map_eq_some_iff.mp
    ((home?_namedTree (o := o) (p := p) h i).trans hx)
  exact ⟨a, ha, hx, hsees⟩

end Differ

end Naming

/-! ## Resolved programs -/

/-- Scope safety: in every scope of a resolved program, the symbols that are declared
there and the symbols that are enclosed there have different names after renaming,
but for the arguments of functions.  The program is one that exports names only at the
outermost level, as each parsed program does. -/
theorem names_differ_in_scope (o : RenameOptions) (hfunctions : o.keepFunctionNames = false)
    (hclasses : o.keepClassNames = false) {p q : Program} {t : ScopeTree}
    (hexports : p.exportsOutermost o.ie8 = true ∨ p.Parsed) (h : resolve o.ie8 p = .ok (q, t))
    (id : Nat) (s : Scope) (hs : (renameVariables o q t []).2.1.scopes[id]? = some s) (i j : Nat)
    (hi : i ∈ s.names.map (·.2) ++ s.enclosed) (hj : j ∈ s.names.map (·.2) ++ s.enclosed)
    (hij : i ≠ j) :
    ∃ a b, (renameVariables o q t []).2.1.symbols[i]? = some a
      ∧ (renameVariables o q t []).2.1.symbols[j]? = some b
      ∧ (a.kind ≠ .arguments → b.kind ≠ .arguments → a.outputName ≠ b.outputName) := by
  obtain ⟨hresolved, hpins⟩ := resolved_of_resolve h
  have hexports := exports_of_resolve h
    (hexports.elim (fun h => h) fun hparsed => hparsed.exportsOutermost o.ie8)
  have hscopes : (namedTree o q t).scopes = t.scopes :=
    (outcome_namedTree (o := o) hresolved q).only.scopes
  have hts : t.scopes[id]? = some s := by rw [← hscopes]; exact hs
  obtain ⟨a, ha, hahome, hisees⟩ := exists_symbol_of_mem hresolved o q hts hi
  obtain ⟨b, hb, hbhome, hjsees⟩ := exists_symbol_of_mem hresolved o q hts hj
  refine ⟨a, b, ha, hb, fun hakind hbkind heq => ?_⟩
  have hnames : nameOf? (namedTree o q t) i
      = nameOf? (namedTree o q t) j := by
    simp [nameOf?, ha, hb, heq]
  rcases catches_of_visible_eq hresolved hpins hexports id hisees hjsees hahome hbhome
    hakind hbkind hij hnames with hcatches | hcatches
  all_goals exact not_catches hfunctions hclasses hcatches

/-- A function with a parameter, and in it a function that adds its own parameter to
the outer one. -/
def nestedAdder : Program :=
  let name (text : String) : Ident := ⟨.nowhere, text, none⟩
  let function (text param : String) (body : List Stmt) : Stmt :=
    .function ⟨.nowhere, some (name text), false, false, [.ident (name param)], ⟨.nowhere, body⟩⟩
  let sum : Expr := .binary .nowhere .add (.ident (name "a")) (.ident (name "b"))
  ⟨.nowhere, .script, [function "f" "a" [function "g" "b" [.return .nowhere (some sum)]]], [],
    none, []⟩

/-- The two parameters are told apart in the inner function. -/
theorem names_differ_in_nestedAdder :
    ∃ q t a b, resolve false nestedAdder = .ok (q, t)
      ∧ (renameVariables {} q t []).2.1.symbols[1]? = some a
      ∧ (renameVariables {} q t []).2.1.symbols[3]? = some b
      ∧ a.outputName ≠ b.outputName := by
  have hrun : (resolve false nestedAdder).toOption.any (fun r =>
      (r.2.scopes[2]?.map fun s => s.names.map (·.2) ++ s.enclosed) = some [3, 1, 3]
        ∧ (r.2.home? 1).map (·.kind) = some .param
        ∧ (r.2.home? 3).map (·.kind) = some .param) = true := by
    decide +kernel
  obtain ⟨⟨q, t⟩, h, hrun⟩ := exists_ok_of_any hrun
  obtain ⟨hscope, hfirst, hsecond⟩ := of_decide_eq_true hrun
  obtain ⟨hresolved, _⟩ := resolved_of_resolve h
  have honly := (outcome_namedTree (o := {}) hresolved q).only
  obtain ⟨s, hs, hvisible⟩ := Option.map_eq_some_iff.mp hscope
  have hs' : (renameVariables {} q t []).2.1.scopes[2]? = some s :=
    (congrArg (·[2]?) honly.scopes).trans hs
  obtain ⟨a, b, ha, hb, hne⟩ := names_differ_in_scope {} rfl rfl (.inl (by decide)) h 2 s hs'
    1 3 (by rw [hvisible]; simp) (by rw [hvisible]; simp) (by decide)
  have hkind : ∀ (k : Nat) (c : Symbol), (renameVariables {} q t []).2.1.symbols[k]? = some c →
      (t.home? k).map (·.kind) = some c.kind := by
    intro k c hc
    have hhome := home?_namedTree (o := {}) (p := q) hresolved k
    rw [← hhome, namedTree, ScopeTree.home?, hc]
    rfl
  refine ⟨q, t, a, b, h, ha, hb, hne ?_ ?_⟩
  · rw [hkind 1 a ha] at hfirst
    simp [Option.some.inj hfirst]
  · rw [hkind 3 b hb] at hsecond
    simp [Option.some.inj hsecond]

end Laconic
