import Laconic.Proofs.Rename.Twin

/-!
# Declaring new names

A program whose symbols have new names declares them again.  Both runs stay in step
(`Declaring.Twin`) as long as no new name is refused, and it is known from the places
of the names and the new names alone which ones are refused: a name that is hoisted
past a block and a name that the block declares stand in each other's way
(`ScopeTree.Clashes`).
-/

namespace Laconic

open ScopeEvent

/-! ## Places of names -/

/-- A name in a program: the scopes around it, from the inside out, its identifier,
and as what it is declared if it is declared there. -/
structure Site where
  path : List Nat
  id : Ident
  declares : Option BindingKind

/-- A symbol is declared at a place. -/
def Site.Declares (a : Site) (i : Nat) (kind : BindingKind) : Prop :=
  a.id.symbol = some i ∧ a.declares = some kind

namespace ScopeEvent

/-- Where the name of an event stands. -/
def site? (p : Spot) : ScopeEvent → Option Site
  | .declare id kind _ _ => some ⟨p.stack, id, some kind⟩
  | .refer id _ _ => some ⟨p.stack, id, none⟩
  | _ => none

/-- The places of the names that events are about. -/
def sites : Spot → List ScopeEvent → List Site
  | _, [] => []
  | p, e :: es => (e.site? p).toList ++ sites (p.step e) es

theorem id_site? (p : Spot) (e : ScopeEvent) : (e.site? p).map (·.id) = e.ident? := by
  cases e <;> rfl

theorem id_sites (p : Spot) (events : List ScopeEvent) :
    (sites p events).map (·.id) = events.filterMap ident? := by
  induction events generalizing p with
  | nil => rfl
  | cons e rest ih =>
    rw [sites, List.map_append, ih, List.filterMap_cons, ← id_site? p e]
    cases e.site? p with
    | none => rfl
    | some a => rfl

end ScopeEvent

namespace ScopeTree

variable {t : ScopeTree} {path : List Nat} {kind : BindingKind} {u : ScopeTree} {a : Site}

/-- Whether a declaration belongs to the function around it. -/
def hoists (t : ScopeTree) (path : List Nat) : BindingKind → Bool
  | .var => true
  | .function => (t.frame? (path.headD root)).all fun f => !f.strict || f.kind.isVarScope
  | _ => false

/-- The blocks that a declaration passes on its way to its function. -/
def passedBy (t : ScopeTree) (path : List Nat) (kind : BindingKind) : List Nat :=
  if t.hoists path kind then path.takeWhile fun id => !t.isVarScope id else []

/-- The scope that a declaration comes to stand in. -/
def standsIn (t : ScopeTree) (path : List Nat) (kind : BindingKind) : Nat :=
  if t.hoists path kind then (path.find? t.isVarScope).getD (path.getLastD root)
  else path.headD root

section Congr

variable {t u : ScopeTree} {path : List Nat}

theorem hoists_congr (h : ∀ id ∈ path, u.frame? id = t.frame? id) (hne : path ≠ [])
    (kind : BindingKind) : u.hoists path kind = t.hoists path kind := by
  obtain ⟨id, rest, rfl⟩ := List.exists_cons_of_ne_nil hne
  cases kind with
  | function => simp only [hoists, List.headD_cons, h id (by simp)]
  | _ => rfl

theorem passedBy_congr (h : ∀ id ∈ path, u.frame? id = t.frame? id) (hne : path ≠ [])
    (kind : BindingKind) : u.passedBy path kind = t.passedBy path kind := by
  have hscope : ∀ id ∈ path, u.isVarScope id = t.isVarScope id := by
    intro id hid
    rw [isVarScope_eq, isVarScope_eq, h id hid]
  have hwhile : path.takeWhile (fun id => !u.isVarScope id)
      = path.takeWhile fun id => !t.isVarScope id := by
    clear h hne
    induction path with
    | nil => rfl
    | cons id rest ih =>
      rw [List.takeWhile_cons, List.takeWhile_cons, hscope id (by simp),
        ih fun id hid => hscope id (List.mem_cons_of_mem _ hid)]
  rw [passedBy, passedBy, hoists_congr h hne, hwhile]

theorem Extends.passedBy (h : t.Extends u) (hpath : t.Chain path) (kind : BindingKind) :
    u.passedBy path kind = t.passedBy path kind := by
  refine passedBy_congr ?_ hpath.ne_nil kind
  intro id hid
  obtain ⟨f, hf⟩ := (lt_size_scopes_iff t id).mp (hpath.lt_size id hid)
  rw [hf]
  exact h id f hf

end Congr

theorem mem_path_of_mem_passedBy {id : Nat} (h : id ∈ t.passedBy path kind) :
    id ∈ path ∧ t.isVarScope id = false := by
  unfold passedBy at h
  split at h
  · have hall := List.all_eq_true.mp List.all_takeWhile id h
    exact ⟨(List.takeWhile_prefix _).subset h, by simpa using hall⟩
  · cases h

theorem isVarScope_standsIn (hpath : t.Chain path) (hroot : t.isVarScope root = true)
    (h : t.hoists path kind = true) : t.isVarScope (t.standsIn path kind) = true := by
  rw [standsIn, if_pos h]
  cases hfind : path.find? t.isVarScope with
  | some id => exact List.find?_some hfind
  | none =>
    have hnot := List.find?_eq_none.mp hfind root hpath.root_mem
    exact absurd hroot hnot

/-- Two declarations, the first one earlier in the program, stand in each other's way
under the names `ν`: one of them is hoisted past the block that the other one stands
in. -/
def Clashes (ν : Nat → String) (t : ScopeTree) (a b : Site) : Prop :=
  ∃ i j kind kind' x y, a.Declares i kind ∧ b.Declares j kind' ∧ t.home? i = some x
    ∧ t.home? j = some y ∧ ν i = ν j
    ∧ (x.scope ∈ t.passedBy b.path kind' ∧ (kind.isLexical || kind == .function) = true
      ∨ y.scope ∈ t.passedBy a.path kind ∧ kind'.isLexical = true)

/-- A place is in the tree, with the symbol that is declared at it. -/
def Holds (t : ScopeTree) (a : Site) : Prop :=
  t.Chain a.path ∧ ∀ i kind, a.Declares i kind → ∃ x, t.home? i = some x ∧ x.name = a.id.name

theorem Holds.mono (h : t.Holds a) (hextends : t.Extends u) (hlater : t.Later u) : u.Holds a := by
  refine ⟨h.1.mono hextends, fun i kind hi => ?_⟩
  obtain ⟨x, hx, hname⟩ := h.2 i kind hi
  obtain ⟨_, hx', _⟩ := hlater i x hx
  exact ⟨_, hx', hname⟩

theorem clashes_iff {ν : Nat → String} {b : Site} (ha : t.Holds a) (hb : t.Holds b)
    (hextends : t.Extends u) (hlater : t.Later u) : u.Clashes ν a b ↔ t.Clashes ν a b := by
  have hpassed := fun kind => hextends.passedBy ha.1 kind
  have hpassed' := fun kind => hextends.passedBy hb.1 kind
  constructor
  · rintro ⟨i, j, kind, kind', x, y, hi, hj, hx, hy, hν, hcase⟩
    obtain ⟨x₀, hx₀, _⟩ := ha.2 i kind hi
    obtain ⟨y₀, hy₀, _⟩ := hb.2 j kind' hj
    obtain ⟨_, hx', _⟩ := hlater i x₀ hx₀
    obtain ⟨_, hy', _⟩ := hlater j y₀ hy₀
    cases Option.mem_unique hx hx'
    cases Option.mem_unique hy hy'
    rw [hpassed, hpassed'] at hcase
    exact ⟨i, j, kind, kind', x₀, y₀, hi, hj, hx₀, hy₀, hν, hcase⟩
  · rintro ⟨i, j, kind, kind', x, y, hi, hj, hx, hy, hν, hcase⟩
    obtain ⟨_, hx', _⟩ := hlater i x hx
    obtain ⟨_, hy', _⟩ := hlater j y hy
    refine ⟨i, j, kind, kind', _, _, hi, hj, hx', hy', hν, ?_⟩
    rw [hpassed, hpassed']
    exact hcase

end ScopeTree

/-! ## Two runs in step -/

namespace Declaring

open ScopeTree

variable {d : Declaring} {fresh : Bool} {i : Nat} {d' : Declaring}

section

variable (d) (kind : BindingKind)

theorem isHoisted_eq : d.isHoisted kind = d.tree.hoists d.stack kind := by
  cases kind with
  | function =>
    simp only [isHoisted, hoists, frame?, current]
    cases d.tree.scopes[d.stack.headD root]? <;> rfl
  | _ => rfl

theorem passed_eq : d.passed kind = d.tree.passedBy d.stack kind := by
  rw [passed, passedBy, isHoisted_eq]

theorem target_eq : d.target kind = d.tree.standsIn d.stack kind := by
  rw [target, standsIn, isHoisted_eq]
  rfl

end

theorem contains_hoistedBy (h : d.Inv fresh) (name : String) (kind : BindingKind) (id : Nat)
    (m : String) :
    (d.hoistedBy name kind)[id]?.any (·.contains m) = true
      ↔ d.hoisted[id]?.any (·.contains m) = true ∨ m = name ∧ id ∈ d.passed kind := by
  have hlt : ∀ id ∈ d.passed kind, id < d.hoisted.size := by
    intro id hid
    rw [passed_eq] at hid
    rw [h.hoisted]
    exact h.chain.lt_size id (mem_path_of_mem_passedBy hid).1
  unfold hoistedBy
  generalize d.hoisted = start at hlt ⊢
  generalize d.passed kind = path at hlt ⊢
  induction path generalizing start with
  | nil => simp
  | cons first rest ih =>
    have hrest : ∀ id ∈ rest, id < (start.modify first (name :: ·)).size := by
      intro id hid
      rw [Array.size_modify]
      exact hlt id (List.mem_cons_of_mem _ hid)
    refine (ih _ hrest).trans ?_
    rw [Array.getElem?_modify, List.mem_cons]
    by_cases hid : first = id
    · subst hid
      obtain ⟨names, hnames⟩ : ∃ names, start[first]? = some names :=
        ⟨_, Array.getElem?_eq_getElem (hlt first (by simp))⟩
      simp only [hnames, ↓reduceIte, Option.map_some, Option.any_some, List.contains_cons,
        Bool.or_eq_true, beq_iff_eq, true_or, and_true]
      tauto
    · rw [if_neg hid]
      have hne : ¬ id = first := fun heq => hid heq.symm
      simp [hne]

theorem Inv.undeclared_eq (h : d.Inv fresh) {x : Home} (hx : d.tree.home? i = some x) :
    x.undeclared = false := by
  obtain ⟨s, hs, rfl⟩ := Option.map_eq_some_iff.mp hx
  exact (h.symbol i s hs).2.1

theorem declare?_rest {name : String} {kind : BindingKind} {loc : Span}
    (h : d.declare? name kind loc = some (d', i)) :
    d'.hoisted = d.hoistedBy name kind ∧ d'.symbols = d.symbols := by
  obtain ⟨_, ⟨_, heq⟩ | ⟨old, _, _, _, heq⟩⟩ := declare?_cases h <;> cases heq <;> exact ⟨rfl, rfl⟩

/-- Two runs over the names of a program, the second one with the names `ν`.  The run
is at the end of the places `past`. -/
structure Twin (ν : Nat → String) (past : List Site) (d e : Declaring) : Prop where
  tree : d.tree.Twin ν e.tree
  stack : e.stack = d.stack
  symbols : e.symbols = d.symbols
  holds : ∀ a ∈ past, d.tree.Holds a
  /-- Every symbol has been declared somewhere. -/
  sited : ∀ i x, d.tree.home? i = some x → ∃ a ∈ past, ∃ kind, a.Declares i kind
  /-- The symbols of blocks are what they are declared as. -/
  kinds : ∀ a ∈ past, ∀ i kind x, a.Declares i kind → d.tree.home? i = some x →
    d.tree.isVarScope x.scope = false → x.kind = kind
  hoisted : ∀ id name, e.hoisted[id]?.any (·.contains name) = true ↔
    ∃ a ∈ past, ∃ i kind, a.Declares i kind ∧ ν i = name ∧ id ∈ d.tree.passedBy a.path kind

namespace Twin

variable {ν : Nat → String} {past : List Site} {d e : Declaring} {fresh : Bool}

theorem passed (h : Twin ν past d e) (hd : d.Inv fresh) (kind : BindingKind) :
    e.passed kind = d.tree.passedBy d.stack kind := by
  rw [passed_eq, h.stack]
  exact passedBy_congr (fun id _ => h.tree.frame id) hd.chain.ne_nil kind

theorem isHoisted (h : Twin ν past d e) (hd : d.Inv fresh) (kind : BindingKind) :
    e.isHoisted kind = d.isHoisted kind := by
  rw [isHoisted_eq, isHoisted_eq, h.stack]
  exact hoists_congr (fun id _ => h.tree.frame id) hd.chain.ne_nil kind

theorem target (h : Twin ν past d e) (hd : d.Inv fresh) (kind : BindingKind) :
    e.target kind = d.target kind := by
  have hscope : e.tree.isVarScope = d.tree.isVarScope := funext h.tree.isVarScope
  unfold Declaring.target current
  rw [h.isHoisted hd, h.stack, hscope]

theorem blocks_iff (h : Twin ν past d e) (hd : d.Inv fresh) (he : e.Inv fresh)
    (hapart : d.tree.Apart ν) (name : String) (id : Nat) :
    e.blocks name id = true ↔ ∃ j x, d.tree.home? j = some x ∧ x.scope = id ∧ ν j = name
      ∧ (x.kind.isLexical || x.kind == .function) = true := by
  unfold blocks declaredKind?
  constructor
  · intro hblocks
    obtain ⟨j, s, hj, hs, hstops⟩ : ∃ j s, e.tree.declared? name id = some j
        ∧ e.tree.symbols[j]? = some s ∧ (s.kind.isLexical || s.kind == .function) = true := by
      cases hj : e.tree.declared? name id with
      | none => simp [hj] at hblocks
      | some j =>
        cases hs : e.tree.symbols[j]? with
        | none => simp [hj, hs] at hblocks
        | some s => exact ⟨j, s, rfl, hs, by simpa [hj, hs] using hblocks⟩
    obtain ⟨hν, old, kind', hhome⟩ := h.tree.of_declared? he.tabled hj
    have hsame : s.kind = kind' := by
      have hhome' := h.tree.home_some hhome
      rw [home?, hs, Option.map_some] at hhome'
      exact congrArg Home.kind (Option.some.inj hhome')
    exact ⟨j, _, hhome, rfl, hν, hsame ▸ hstops⟩
  · rintro ⟨j, x, hx, rfl, rfl, hstops⟩
    have hund := hd.undeclared_eq hx
    obtain ⟨old, id, kind, und⟩ := x
    cases hund
    have hnot : kind.isShadowable = false := by cases kind <;> first | rfl | cases hstops
    rw [h.tree.declared?_eq he.tabled hapart hx hnot, Option.bind_some]
    obtain ⟨s, hs, heq⟩ := Option.map_eq_some_iff.mp (h.tree.home_some hx)
    rw [hs, Option.map_some, Option.any_some]
    have hkind : s.kind = kind := congrArg Home.kind heq
    rw [hkind]
    exact hstops

section Step

variable {d' : Declaring} {name : String} {kind : BindingKind} {loc : Span} {i : Nat} {id : Ident}
  {e' : Declaring} {loc' : Span}

/-- A new name is in the way of earlier ones just if its declaration clashes with
one of theirs. -/
theorem collides_iff (h : Twin ν past d e) (hd : d.Inv fresh) (he : e.Inv fresh)
    (hglobal : kind ≠ .global) (hdecl : d.declare? name kind loc = some (d', i))
    (hapart : d'.tree.Apart ν) (hid : id.symbol = some i) :
    e.collides (ν i) kind = true ↔ ∃ a ∈ past, d'.tree.Clashes ν a ⟨d.stack, id, some kind⟩ := by
  have hlater := hd.later_declare? hglobal hdecl
  obtain ⟨_, hframe⟩ := declare?_frame hdecl
  obtain ⟨y, hy, hyscope⟩ : ∃ y, d'.tree.home? i = some y ∧ y.scope = d.target kind := by
    obtain ⟨s, hs, hscope, _⟩ := hd.scope_declare? hdecl
    exact ⟨s.home, by rw [home?, hs]; rfl, hscope⟩
  have hpassed : ∀ path, path ≠ [] → ∀ k, d'.tree.passedBy path k = d.tree.passedBy path k :=
    fun path hne k => passedBy_congr (fun id _ => hframe id) hne k
  have hblocks := h.blocks_iff hd he (hapart.of_later hlater) (ν i)
  unfold collides
  rw [Bool.or_eq_true, List.any_eq_true, h.passed hd, h.isHoisted hd, h.target hd]
  simp only [Bool.and_eq_true, hblocks, h.hoisted]
  constructor
  · rintro (⟨block, hmem, j, x, hx, rfl, hν, hstops⟩ | ⟨⟨_, hlexical⟩, a, ha, j, k, hj, hν, hmem⟩)
    · obtain ⟨a, ha, k, hj⟩ := h.sited j x hx
      have hkind := h.kinds a ha j k x hj hx (mem_path_of_mem_passedBy hmem).2
      obtain ⟨_, hx', _⟩ := hlater j x hx
      refine ⟨a, ha, j, i, k, kind, _, y, hj, ⟨hid, rfl⟩, hx', hy, hν, .inl ⟨?_, hkind ▸ hstops⟩⟩
      rw [hpassed _ hd.chain.ne_nil]
      exact hmem
    · obtain ⟨x, hx, _⟩ := (h.holds a ha).2 j k hj
      obtain ⟨_, hx', _⟩ := hlater j x hx
      refine ⟨a, ha, j, i, k, kind, _, y, hj, ⟨hid, rfl⟩, hx', hy, hν, .inr ⟨?_, hlexical⟩⟩
      rw [hpassed _ (h.holds a ha).1.ne_nil, hyscope]
      exact hmem
  · rintro ⟨a, ha, j, i', k, kind', x', y', hj, ⟨hi', hkind'⟩, hx', hy', hν, hcase⟩
    cases Option.mem_unique hid hi'
    cases Option.some.inj hkind'
    cases Option.mem_unique hy hy'
    obtain ⟨x, hx, _⟩ := (h.holds a ha).2 j k hj
    obtain ⟨_, hx'', _⟩ := hlater j x hx
    cases Option.mem_unique hx' hx''
    rcases hcase with ⟨hmem, hstops⟩ | ⟨hmem, hlexical⟩
    · rw [hpassed _ hd.chain.ne_nil] at hmem
      have hkind := h.kinds a ha j k x hj hx (mem_path_of_mem_passedBy hmem).2
      exact .inl ⟨x.scope, hmem, j, x, hx, rfl, hν, hkind ▸ hstops⟩
    · rw [hpassed _ (h.holds a ha).1.ne_nil, hyscope] at hmem
      have hnot : (!d.isHoisted kind) = true := by
        cases kind <;> first | rfl | cases hlexical
      exact .inr ⟨⟨hnot, hlexical⟩, a, ha, j, k, hj, hν, hmem⟩

theorem declare?_eq_some (h : Twin ν past d e) (hd : d.Inv fresh) (he : e.Inv fresh)
    (hglobal : kind ≠ .global) (hdecl : d.declare? name kind loc = some (d', i))
    (hapart : d'.tree.Apart ν) (hfree : e.collides (ν i) kind = false) (loc' : Span) :
    ∃ e', e.declare? (ν i) kind loc' = some (e', i) := by
  have hapart' := hapart.of_later (hd.later_declare? hglobal hdecl)
  obtain ⟨hother, hcase⟩ := hd.declare?_home hglobal hdecl
  rw [declare?_eq, hfree, if_neg (by simp)]
  rcases hcase with ⟨hsize, hnone, _, hhome⟩ | ⟨old, hold, hshadow, hverdict, hhome, _⟩
  · -- what has got the name in this scope is older, so it gives way
    have hgives : ∀ j k, e.old? (ν i) kind = some (j, k) → k.isShadowable = true := by
      intro j k hold
      obtain ⟨j', hj, hpair⟩ := Option.bind_eq_some_iff.mp hold
      obtain ⟨s, hs, hpair⟩ := Option.map_eq_some_iff.mp hpair
      simp only [Prod.mk.injEq] at hpair
      obtain ⟨rfl, rfl⟩ := hpair
      obtain ⟨hν, old, k, hk⟩ := h.tree.of_declared? he.tabled hj
      have hsame : s.kind = k := by
        have hhome' := h.tree.home_some hk
        rw [home?, hs, Option.map_some] at hhome'
        exact congrArg Home.kind (Option.some.inj hhome')
      have hlt : j' < i := by
        rw [hsize]
        exact lt_size_of_home? hk
      have hk' : d'.tree.home? j' = some ⟨old, d.target kind, k, false⟩ := by
        rw [hother j' (Nat.ne_of_lt hlt), hk, h.target hd]
      rw [hsame]
      cases hkshadow : k.isShadowable with
      | true => rfl
      | false =>
        exfalso
        cases hkind : kind.isShadowable with
        | true =>
          have hle := hapart.first hhome hk' hkind rfl rfl
          omega
        | false =>
          have heq := hapart.own hk' hhome rfl rfl rfl hkshadow hkind hν
          omega
    have hnew : e.decide? (ν i) kind loc' (e.old? (ν i) kind) = some (e.asNew (ν i) kind loc') := by
      cases hold : e.old? (ν i) kind with
      | none => rfl
      | some found =>
        obtain ⟨j, k⟩ := found
        simp only [decide?, verdict, hgives j k hold, ↓reduceIte]
    exact ⟨_, hnew.trans (by rw [asNew, h.tree.size_symbols, ← hsize])⟩
  · have hfound : e.tree.declared? (ν i) (e.target kind) = some i := by
      rw [h.target hd]
      exact h.tree.declared?_eq he.tabled hapart' hhome hshadow
    have hold' : e.old? (ν i) kind = some (i, old) := by
      obtain ⟨s, hs, heq⟩ := Option.map_eq_some_iff.mp (h.tree.home_some hhome)
      have hkind : s.kind = old := congrArg Home.kind heq
      rw [old?, hfound, Option.bind_some, hs, Option.map_some, hkind]
    refine ⟨(e.asAgain (ν i) kind loc' i old).1, ?_⟩
    rw [hold']
    simp only [decide?, h.isHoisted hd, hverdict]
    rfl

theorem home_declare? (h : Twin ν past d e) (hd : d.Inv fresh) (he : e.Inv fresh)
    (hglobal : kind ≠ .global) (hdecl : d.declare? name kind loc = some (d', i))
    (hdecl' : e.declare? (ν i) kind loc' = some (e', i)) (j : Nat) :
    e'.tree.home? j = (d'.tree.home? j).map fun x => { x with name := ν j } := by
  obtain ⟨hother, hcase⟩ := hd.declare?_home hglobal hdecl
  obtain ⟨hother', hcase'⟩ := he.declare?_home hglobal hdecl'
  by_cases hj : j = i
  · subst hj
    have hback := h.tree.home j
    rcases hcase with ⟨_, hnone, _, hhome⟩ | ⟨old, _, _, _, hold, hhome⟩
    · rcases hcase' with ⟨_, _, _, hhome'⟩ | ⟨_, _, _, _, hold', _⟩
      · rw [hhome, hhome', h.target hd]
        rfl
      · rw [hold', hnone] at hback
        cases hback
    · rcases hcase' with ⟨_, hnone', _⟩ | ⟨old', _, _, _, hold', hhome'⟩
      · rw [hnone', hold] at hback
        cases hback
      · rw [hold', hold] at hback
        have hsame : old' = old := congrArg Home.kind (Option.some.inj hback)
        rw [hhome, hhome', h.target hd, hsame]
        rfl
  · rw [hother' j hj, hother j hj]
    exact h.tree.home j

theorem kind_declare? (hd : d.Inv fresh) (hroot : d.tree.isVarScope root = true)
    (hglobal : kind ≠ .global) (hdecl : d.declare? name kind loc = some (d', i)) {x : Home}
    (hx : d'.tree.home? i = some x) (hblock : d.tree.isVarScope x.scope = false) :
    x.kind = kind ∧ ∀ y, d.tree.home? i = some y → y = x := by
  obtain ⟨_, hcase⟩ := hd.declare?_home hglobal hdecl
  rcases hcase with ⟨_, hnone, _, hhome⟩ | ⟨old, _, hshadow, hverdict, hold, hhome⟩
  · rw [hhome] at hx
    cases hx
    refine ⟨rfl, fun y hy => ?_⟩
    rw [hnone] at hy
    cases hy
  · rw [hhome] at hx
    cases hx
    have hhoisted : d.isHoisted kind = false := by
      refine Bool.eq_false_iff.mpr fun hhoisted => ?_
      rw [isHoisted_eq] at hhoisted
      rw [target_eq, isVarScope_standsIn hd.chain hroot hhoisted] at hblock
      cases hblock
    have hsame : old = kind := by
      rw [verdict, hshadow, hhoisted] at hverdict
      simp only [Bool.false_eq_true, ↓reduceIte] at hverdict
      split at hverdict
      · next hagain =>
        simp only [Bool.or_eq_true, Bool.and_eq_true, beq_iff_eq] at hagain
        rcases hagain with ⟨hold, hkind⟩ | ⟨_, hkind⟩
        · rw [hold, hkind]
        · exact hkind
      · cases hverdict
    have hkeeps : (kind == .function && old == .var) = false := by
      rw [hsame]
      cases kind <;> rfl
    rw [hkeeps, if_neg (by simp)]
    refine ⟨hsame, fun y hy => ?_⟩
    rw [hold] at hy
    exact (Option.some.inj hy).symm

theorem declare (h : Twin ν past d e) (hd : d.Inv fresh) (he : e.Inv fresh)
    (hroot : d.tree.isVarScope root = true) (hglobal : kind ≠ .global)
    (hdecl : d.declare? id.name kind loc = some (d', i)) (hid : id.symbol = some i)
    (hdecl' : e.declare? (ν i) kind loc' = some (e', i)) :
    Twin ν (past ++ [⟨d.stack, id, some kind⟩]) { d' with symbols := d'.symbols.push i }
      { e' with symbols := e'.symbols.push i } := by
  have hlater := hd.later_declare? hglobal hdecl
  obtain ⟨hstack, hframe⟩ := declare?_frame hdecl
  obtain ⟨hstack', hframe'⟩ := declare?_frame hdecl'
  obtain ⟨_, hsymbols⟩ := declare?_rest hdecl
  obtain ⟨hhoisted', hsymbols'⟩ := declare?_rest hdecl'
  obtain ⟨hother, _⟩ := hd.declare?_home hglobal hdecl
  have hscope : ∀ id, d'.tree.isVarScope id = d.tree.isVarScope id := by
    intro id
    rw [isVarScope_eq, isVarScope_eq, hframe]
  have hdeclares : ∀ j k, Site.Declares ⟨d.stack, id, some kind⟩ j k → j = i ∧ k = kind := by
    rintro j k ⟨hj, hk⟩
    exact ⟨Option.mem_unique hj hid, (Option.some.inj hk).symm⟩
  have htree : d'.tree.Twin ν e'.tree :=
    ⟨fun id => by rw [hframe', h.tree.frame, hframe],
      h.home_declare? hd he hglobal hdecl hdecl'⟩
  have hhere : ∃ x, d'.tree.home? i = some x ∧ x.name = id.name := by
    obtain ⟨s, hs, _, hname⟩ := hd.scope_declare? hdecl
    exact ⟨s.home, by rw [home?, hs]; rfl, hname⟩
  exact {
    tree := htree
    stack := by
      rw [hstack, hstack', h.stack]
    symbols := by
      rw [hsymbols, hsymbols', h.symbols]
    holds := by
      intro a ha
      rcases List.mem_append.mp ha with ha | ha
      · exact (h.holds a ha).mono (.of_eq hframe) hlater
      · rw [List.mem_singleton.mp ha]
        refine ⟨hd.chain.mono (.of_eq hframe), fun j k hj => ?_⟩
        rw [(hdeclares j k hj).1]
        exact hhere
    sited := by
      intro j x hx
      by_cases hj : j = i
      · exact ⟨⟨d.stack, id, some kind⟩, by simp, kind, hj ▸ hid, rfl⟩
      · obtain ⟨a, ha, k, hk⟩ := h.sited j x ((hother j hj).symm.trans hx)
        exact ⟨a, by simp [ha], k, hk⟩
    kinds := by
      intro a ha j k x hj hx hblock'
      have hblock : d.tree.isVarScope x.scope = false := (hscope x.scope).symm.trans hblock'
      rcases List.mem_append.mp ha with ha | ha
      · obtain ⟨y, hy, _⟩ := (h.holds a ha).2 j k hj
        by_cases hji : j = i
        · subst hji
          have heq := (kind_declare? hd hroot hglobal hdecl hx hblock).2 y hy
          exact h.kinds a ha j k x hj (heq ▸ hy) hblock
        · exact h.kinds a ha j k x hj ((hother j hji).symm.trans hx) hblock
      · rw [List.mem_singleton.mp ha] at hj
        obtain ⟨rfl, rfl⟩ := hdeclares j k hj
        exact (kind_declare? hd hroot hglobal hdecl hx hblock).1
    hoisted := by
      intro block m
      have hpassed : ∀ path, path ≠ [] → ∀ k, d'.tree.passedBy path k = d.tree.passedBy path k :=
        fun path hne k => passedBy_congr (fun id _ => hframe id) hne k
      rw [hhoisted', contains_hoistedBy he, h.hoisted, h.passed hd]
      constructor
      · rintro (⟨a, ha, j, k, hj, hν, hmem⟩ | ⟨rfl, hmem⟩)
        · refine ⟨a, by simp [ha], j, k, hj, hν, ?_⟩
          rw [hpassed _ (h.holds a ha).1.ne_nil]
          exact hmem
        · refine ⟨⟨d.stack, id, some kind⟩, by simp, i, kind, ⟨hid, rfl⟩, rfl, ?_⟩
          rw [hpassed _ hd.chain.ne_nil]
          exact hmem
      · rintro ⟨a, ha, j, k, hj, hν, hmem⟩
        rcases List.mem_append.mp ha with ha | ha
        · rw [hpassed _ (h.holds a ha).1.ne_nil] at hmem
          exact .inl ⟨a, ha, j, k, hj, hν, hmem⟩
        · rw [List.mem_singleton.mp ha] at hj hmem
          obtain ⟨rfl, rfl⟩ := hdeclares j k hj
          rw [hpassed _ hd.chain.ne_nil] at hmem
          exact .inr ⟨hν.symm, hmem⟩ }

end Step

/-! ## Every event -/

theorem enter (h : Twin ν past d e) (hd : d.Inv fresh) (kind : ScopeKind) (loc : Span)
    (strict : Bool) : Twin ν past (d.enter kind loc strict) (e.enter kind loc strict) := by
  have hextends := d.extends_enter kind loc strict
  have hhome : ∀ i, (d.enter kind loc strict).tree.home? i = d.tree.home? i := fun i => by
    rw [home?, symbols_enter, home?]
  have hnew : (e.newScope kind loc strict).frame = (d.newScope kind loc strict).frame := by
    have hstrict : ∀ (t : ScopeTree) (parent : Option Nat),
        (parent.bind (t.scopes[·]?)).any (·.strict) = (parent.bind t.frame?).any (·.strict) := by
      intro t parent
      cases parent with
      | none => rfl
      | some id =>
        simp only [Option.bind_some, frame?]
        cases t.scopes[id]? <;> rfl
    have hframe : e.tree.frame? = d.tree.frame? := funext h.tree.frame
    simp only [newScope, Scope.frame, hstrict, h.stack, hframe]
  exact {
    tree := by
      refine ⟨fun id => ?_, fun i => ?_⟩
      · rw [frame?_enter, frame?_enter, h.tree.size_scopes, hnew, h.tree.frame]
      · rw [hhome, home?, symbols_enter]
        exact h.tree.home i
    stack := by rw [stack_enter, stack_enter, h.tree.size_scopes, h.stack]
    symbols := h.symbols
    holds := fun a ha => (h.holds a ha).mono hextends (.of_eq hhome)
    sited := fun i x hx => h.sited i x ((hhome i).symm.trans hx)
    kinds := by
      intro a ha i k x hi hx hblock
      rw [hhome] at hx
      refine h.kinds a ha i k x hi hx ?_
      obtain ⟨f, hf⟩ := (lt_size_scopes_iff d.tree x.scope).mp (hd.resolved.scope_lt i x hx)
      rw [isVarScope_eq, hf]
      rw [isVarScope_eq, hextends _ f hf] at hblock
      exact hblock
    hoisted := by
      intro id name
      have hpush : (e.hoisted.push [])[id]?.any (·.contains name)
          = e.hoisted[id]?.any (·.contains name) := by
        rw [Array.getElem?_push]
        split
        · next hid => simp [hid]
        · rfl
      show (e.hoisted.push [])[id]?.any (·.contains name) = true ↔ _
      rw [hpush, h.hoisted]
      constructor
      · rintro ⟨a, ha, i, k, hi, hν, hmem⟩
        exact ⟨a, ha, i, k, hi, hν, by rwa [hextends.passedBy (h.holds a ha).1]⟩
      · rintro ⟨a, ha, i, k, hi, hν, hmem⟩
        exact ⟨a, ha, i, k, hi, hν, by rwa [hextends.passedBy (h.holds a ha).1] at hmem⟩ }

theorem note (h : Twin ν past d e) (hd : d.Inv fresh) (id : Ident) :
    Twin ν (past ++ [⟨d.stack, id, none⟩]) d e := by
  have hnot : ∀ i k, ¬ Site.Declares ⟨d.stack, id, none⟩ i k := by
    rintro i k ⟨_, hk⟩
    cases hk
  have hold : ∀ a ∈ past ++ [⟨d.stack, id, none⟩], ∀ i k, a.Declares i k → a ∈ past := by
    intro a ha i k hi
    rcases List.mem_append.mp ha with ha | ha
    · exact ha
    · rw [List.mem_singleton.mp ha] at hi
      exact absurd hi (hnot i k)
  exact {
    tree := h.tree
    stack := h.stack
    symbols := h.symbols
    holds := by
      intro a ha
      rcases List.mem_append.mp ha with ha | ha
      · exact h.holds a ha
      · rw [List.mem_singleton.mp ha]
        exact ⟨hd.chain, fun i k hi => absurd hi (hnot i k)⟩
    sited := by
      intro i x hx
      obtain ⟨a, ha, hi⟩ := h.sited i x hx
      exact ⟨a, List.mem_append_left _ ha, hi⟩
    kinds := fun a ha i k x hi => h.kinds a (hold a ha i k hi) i k x hi
    hoisted := by
      intro block name
      rw [h.hoisted]
      constructor
      · rintro ⟨a, ha, hi⟩
        exact ⟨a, List.mem_append_left _ ha, hi⟩
      · rintro ⟨a, ha, i, k, hi, hrest⟩
        exact ⟨a, hold a ha i k hi, i, k, hi, hrest⟩ }

theorem markExported (h : Twin ν past d e) (i : Nat) :
    Twin ν past { d with tree := d.tree.markExported i }
      { e with tree := e.tree.markExported i } where
  tree := by
    refine ⟨h.tree.frame, fun j => ?_⟩
    rw [home?_markExported, home?_markExported]
    exact h.tree.home j
  stack := h.stack
  symbols := h.symbols
  holds a ha := (h.holds a ha).mono (.of_eq fun _ => rfl) (.of_eq (home?_markExported d.tree i))
  sited j x hx := h.sited j x ((home?_markExported d.tree i j).symm.trans hx)
  kinds a ha j k x hj hx := h.kinds a ha j k x hj ((home?_markExported d.tree i j).symm.trans hx)
  hoisted := h.hoisted

section Run

variable {fileName : Span → String} {g : Ident → Ident} {d' : Declaring} {kind : BindingKind}
  {i : Nat} {ev : ScopeEvent}

theorem symbol_eq {name : String} {loc : Span} {d₁ : Declaring} {j : Nat}
    (hdecl : d.declare? name kind loc = some (d₁, j)) (h : d₁.symbols.push j = d.symbols.push i) :
    j = i := by
  rw [(declare?_rest hdecl).2] at h
  exact Array.push_inj_right.mp h

/-- A declaration gives its symbol a name and a scope. -/
theorem home_declare {id : Ident} {exported loop : Bool} (hd : d.Inv fresh)
    (hstep : d.step fileName (.declare id kind exported loop) = .ok d')
    (hlabel : ∃ i, id.symbol = some i ∧ d'.symbols = d.symbols.push i) (hi : id.symbol = some i) :
    ∃ x, d'.tree.home? i = some x ∧ x.scope = d.target kind ∧ x.name = id.name := by
  obtain ⟨i', hi', hsymbols⟩ := hlabel
  cases Option.mem_unique hi hi'
  obtain ⟨d₁, j, hdecl, rfl⟩ := step_declare hstep
  obtain rfl : j = i := symbol_eq hdecl hsymbols
  obtain ⟨s, hs, hs'⟩ := hd.scope_declare? hdecl
  have hhome : d₁.tree.home? j = some s.home := by
    rw [home?, hs]
    rfl
  cases exported with
  | false => exact ⟨_, hhome, hs'⟩
  | true => exact ⟨_, (home?_markExported d₁.tree j j).trans hhome, hs'⟩

theorem holds_site (hd : d.Inv fresh) (hstep : d.step fileName ev = .ok d')
    (hlabel : ∀ id kind exported loop, ev = .declare id kind exported loop →
      ∃ i, id.symbol = some i ∧ d'.symbols = d.symbols.push i) :
    ∀ b ∈ (ev.site? d.spot).toList, d'.tree.Holds b := by
  intro b hb
  cases ev with
  | declare id kind exported loop =>
    cases List.mem_singleton.mp hb
    obtain ⟨_, hextends, _⟩ := spot_step hstep
    refine ⟨hd.chain.mono hextends, ?_⟩
    rintro i k ⟨hi, _⟩
    obtain ⟨x, hx, _, hname⟩ := home_declare hd hstep (hlabel id kind exported loop rfl) hi
    exact ⟨x, hx, hname⟩
  | refer id access exported =>
    cases List.mem_singleton.mp hb
    cases hstep
    refine ⟨hd.chain, ?_⟩
    rintro i k ⟨_, hk⟩
    cases hk
  | enter | leave | this => cases hb

theorem step_declare_eq (e : Declaring) (id : Ident) (kind : BindingKind) (exported loop : Bool) :
    e.step fileName (.declare id kind exported loop) = match e.declare? id.name kind id.loc with
      | some (e, symbol) => .ok { e with
          tree := if exported then e.tree.markExported symbol else e.tree
          symbols := e.symbols.push symbol }
      | none => .error (.grammar (.redeclared id.name) id.loc.start (fileName id.loc)) :=
  rfl

/-- One event in both runs: they stay in step, or the second one refuses a name that
clashes with an earlier one. -/
theorem step (h : Twin ν past d e) (hd : d.Inv fresh) (he : e.Inv fresh)
    (hroot : d.tree.isVarScope root = true)
    (hg : ∀ a ∈ (ev.site? d.spot).toList, ∀ i, a.id.symbol = some i → (g a.id).name = ν i)
    (hadmits : d.Admits fresh ev) (hstep : d.step fileName ev = .ok d')
    (hlabel : ∀ id kind exported loop, ev = .declare id kind exported loop →
      ∃ i, id.symbol = some i ∧ d'.symbols = d.symbols.push i) (hapart : d'.tree.Apart ν) :
    (∃ e', e.step fileName (ev.withIdent g) = .ok e'
        ∧ Twin ν (past ++ (ev.site? d.spot).toList) d' e'
        ∧ ∀ a ∈ past, ∀ b ∈ (ev.site? d.spot).toList, ¬ d'.tree.Clashes ν a b)
      ∨ (∃ err, e.step fileName (ev.withIdent g) = .error err)
        ∧ ∃ a ∈ past, ∃ b ∈ (ev.site? d.spot).toList, d'.tree.Clashes ν a b := by
  cases ev with
  | enter kind loc strict =>
    cases hstep
    refine .inl ⟨_, rfl, ?_, by simp [site?]⟩
    simpa [site?] using h.enter hd kind loc strict
  | leave =>
    cases hstep
    refine .inl ⟨_, rfl, ?_, by simp [site?]⟩
    simp only [site?, Option.toList_none, List.append_nil]
    exact { h with stack := congrArg List.tail h.stack }
  | refer id access exported =>
    cases hstep
    refine .inl ⟨_, rfl, h.note hd id, ?_⟩
    rintro a _ b hb ⟨i, j, k, k', x, y, _, ⟨_, hk'⟩, _⟩
    cases List.mem_singleton.mp hb
    cases hk'
  | this =>
    cases hstep
    exact .inl ⟨_, rfl, by simpa [site?] using h, by simp [site?]⟩
  | declare id kind exported loop =>
    obtain ⟨i, hi, hsymbols⟩ := hlabel id kind exported loop rfl
    obtain ⟨d₁, j, hdecl, rfl⟩ := step_declare hstep
    obtain rfl : j = i := symbol_eq hdecl hsymbols
    have hhome : ∀ k, (if exported then d₁.tree.markExported j else d₁.tree).home? k
        = d₁.tree.home? k := by
      intro k
      split
      · exact home?_markExported d₁.tree j k
      · rfl
    have hapart₁ : d₁.tree.Apart ν := hapart.of_later (.of_eq hhome)
    have hclashes : ∀ a, (if exported then d₁.tree.markExported j else d₁.tree).Clashes ν a
        ⟨d.stack, id, some kind⟩ ↔ d₁.tree.Clashes ν a ⟨d.stack, id, some kind⟩ := by
      intro a
      simp only [Clashes, hhome]
      split <;> rfl
    have hiff := h.collides_iff hd he hadmits.1 hdecl hapart₁ hi
    have hname : (g id).name = ν j := hg _ (List.mem_singleton.mpr rfl) j hi
    simp only [withIdent, site?, Option.toList_some, List.mem_singleton,
      forall_eq, exists_eq_left, step_declare_eq, hname, spot, hclashes]
    cases hcollides : e.collides (ν j) kind with
    | true =>
      refine .inr ⟨?_, hiff.mp hcollides⟩
      rw [declare?_eq, hcollides, if_pos rfl]
      exact ⟨_, rfl⟩
    | false =>
      obtain ⟨e', hdecl'⟩ :=
        h.declare?_eq_some hd he hadmits.1 hdecl hapart₁ hcollides (g id).loc
      rw [hdecl']
      have htwin := h.declare hd he hroot hadmits.1 hdecl hi hdecl'
      refine .inl ⟨_, rfl, ?_, fun a ha hclash => ?_⟩
      · cases exported with
        | false => exact htwin
        | true => exact htwin.markExported j
      · rw [hiff.mpr ⟨a, ha, hclash⟩] at hcollides
        cases hcollides

/-- All events in both runs: they stay in step to the end if no two names clash, and
otherwise the second one fails. -/
theorem run {events : List ScopeEvent} (h : Twin ν past d e)
    (hd : Course fileName fresh events d d') (he : e.Inv fresh)
    (hroot : d.tree.isVarScope root = true)
    (hg : ∀ a ∈ sites d.spot events, ∀ i, a.id.symbol = some i → (g a.id).name = ν i)
    (hlabel : d.Labelled fileName events) (hapart : d'.tree.Apart ν)
    (hpast : past.Pairwise fun a b => ¬ d'.tree.Clashes ν a b) :
    (∃ e', (events.map (withIdent g)).foldlM (Declaring.step fileName) e = .ok e'
        ∧ Twin ν (past ++ sites d.spot events) d' e' ∧ e'.Inv false
        ∧ (past ++ sites d.spot events).Pairwise fun a b => ¬ d'.tree.Clashes ν a b)
      ∨ (∃ err, (events.map (withIdent g)).foldlM (Declaring.step fileName) e
          = .error err)
        ∧ ¬ (past ++ sites d.spot events).Pairwise
          fun a b => ¬ d'.tree.Clashes ν a b := by
  induction events generalizing d e past fresh with
  | nil =>
    cases hd.run
    simp only [sites, List.append_nil]
    exact .inl ⟨e, rfl, h, he.weaken, hpast⟩
  | cons ev rest ih =>
    obtain ⟨d₁, hstep, hadmits, hd₁⟩ := hd.step
    obtain ⟨hlabel₁, hlabelRest⟩ := hlabel d₁ hstep
    obtain ⟨hspot, hextends₁, _⟩ := spot_step hstep
    obtain ⟨_, hextends, _⟩ := spot_run hd₁.run
    have hlater := hd₁.later
    have hholds : ∀ a ∈ past ++ (ev.site? d.spot).toList, d₁.tree.Holds a := by
      intro a ha
      rcases List.mem_append.mp ha with ha | ha
      · exact (h.holds a ha).mono hextends₁ (hd.inv.later_step hadmits hstep)
      · exact holds_site hd.inv hstep hlabel₁ a ha
    have hclashes : ∀ a ∈ past, ∀ b ∈ (ev.site? d.spot).toList,
        (d'.tree.Clashes ν a b ↔ d₁.tree.Clashes ν a b) := fun a ha b hb =>
      clashes_iff (hholds a (List.mem_append_left _ ha)) (hholds b (List.mem_append_right _ hb))
        hextends hlater
    rw [sites, ← hspot, ← List.append_assoc, List.map_cons, List.foldlM_cons]
    rcases h.step hd.inv he hroot (fun a ha => hg a (List.mem_append_left _ ha)) hadmits hstep
      hlabel₁ (hapart.of_later hlater) with
      ⟨e₁, hstep', htwin, hfree⟩ | ⟨⟨err, herr⟩, a, ha, b, hb, hclash⟩
    · have he₁ : e₁.Inv (opens ev) := by
        have hadmits' : e.Admits fresh (ev.withIdent g) := by
          cases ev with
          | leave =>
            show 1 < e.stack.length
            rw [h.stack]
            exact hadmits
          | enter | declare | refer | this => exact hadmits
        have hopens : opens (ev.withIdent g) = opens ev := by cases ev <;> rfl
        rw [← hopens]
        exact he.step hadmits' hstep'
      have hroot₁ : d₁.tree.isVarScope root = true := by
        rw [isVarScope_eq] at hroot ⊢
        cases hf : d.tree.frame? root with
        | none => simp [hf] at hroot
        | some f =>
          rw [hextends₁ root f hf]
          simpa [hf] using hroot
      have hpast₁ : (past ++ (ev.site? d.spot).toList).Pairwise
          fun a b => ¬ d'.tree.Clashes ν a b := by
        refine List.pairwise_append.mpr ⟨hpast, ?_, fun a ha b hb => ?_⟩
        · cases ev.site? d.spot <;> simp
        · rw [hclashes a ha b hb]
          exact hfree a ha b hb
      rw [hstep']
      refine ih htwin hd₁ he₁ hroot₁ (fun a ha => hg a ?_) hlabelRest hpast₁
      rw [hspot] at ha
      exact List.mem_append_right _ ha
    · refine .inr ⟨⟨err, ?_⟩, fun hpairwise => ?_⟩
      · rw [herr]
        rfl
      · have hpairwise' := (List.pairwise_append.mp hpairwise).1
        refine (List.pairwise_append.mp hpairwise').2.2 a ha b hb ?_
        exact (hclashes a ha b hb).mpr hclash

end Run

end Twin

theorem Course.holds {fileName : Span → String} {events : List ScopeEvent}
    (hd : Course fileName fresh events d d') (hlabel : d.Labelled fileName events) :
    ∀ b ∈ sites d.spot events, d'.tree.Holds b := by
  induction events generalizing d fresh with
  | nil =>
    intro b hb
    cases hb
  | cons ev rest ih =>
    obtain ⟨d₁, hstep, _, hd₁⟩ := hd.step
    obtain ⟨hlabel₁, hlabelRest⟩ := hlabel d₁ hstep
    obtain ⟨hspot, _, _⟩ := spot_step hstep
    obtain ⟨_, hextends, _⟩ := spot_run hd₁.run
    intro b hb
    rw [sites, ← hspot] at hb
    rcases List.mem_append.mp hb with hb | hb
    · exact (Twin.holds_site hd.inv hstep hlabel₁ b hb).mono hextends hd₁.later
    · exact ih hd₁ hlabelRest b hb

end Declaring

end Laconic
