import Laconic.CommandLine.Run
import Laconic.Proofs.Rename.Reuse
import Mathlib

/-!
# Sessions

Runs of renaming that hand the tables of names on from one to the next.  In every
session, whatever programs and options its runs have, no two names share a new name,
and a name keeps the new name that it once got: a new name is none of the names that
the tables hold.  Which properties are renamed may depend on patterns, and what is shown
here holds for each engine that reads them.
-/

namespace Laconic

open ScopeTree Renaming

/-! ## Variables -/

namespace Naming

variable {t : ScopeTree}

def entries (t : ScopeTree) (names : NameTable) : List (String × String) :=
  names.filterMap fun e => t.symbols[e.2]?.bind fun s => s.newName.map fun new => (s.name, new)

theorem remember_eq {s : Scope} (hs : t.scopes[root]? = some s) (cache : Renaming) :
    remember t cache = insertAll (entries t s.names) cache := by
  unfold remember
  rw [hs]
  dsimp only
  generalize s.names = names
  induction names generalizing cache with
  | nil => rfl
  | cons e rest ih =>
    rw [List.foldl_cons, ih]
    unfold entries
    rw [List.filterMap_cons]
    cases hsym : t.symbols[e.2]? with
    | none => rfl
    | some b =>
      cases hnew : b.newName with
      | none => simp [hnew]
      | some new => simp [hnew, insertAll]

theorem newName?_cleared (t : ScopeTree) (i : Nat) : newName? (cleared t) i = none := by
  rw [newName?, getElem?_symbols_cleared]
  cases t.symbols[i]? <;> rfl

theorem cachedName?_cleared (h : t.Resolved) {cache : Renaming} {n : String} {i : Nat}
    (hi : t.declared? n root = some i) : cachedName? cache (cleared t) i = cache.find? n := by
  obtain ⟨kind, hhome⟩ := h.home?_of_declared? hi
  rw [cachedName?_eq, (alike_cleared t).home, hhome, Option.bind_some]

section Remember

variable {o : RenameOptions} {p : Program} {t : ScopeTree} {cache : Renaming} {m n x : String}
  {i : Nat}

variable (h : t.Resolved)

include h

theorem find?_remember (hroot : 0 < t.scopes.size) (n x : String) :
    (renameVariables o p t cache).2.2.find? n = some x ↔
      (∃ i, t.declared? n root = some i
        ∧ newName? (renameVariables o p t cache).2.1 i = some x)
      ∨ (∀ i, t.declared? n root = some i →
          newName? (renameVariables o p t cache).2.1 i = none)
        ∧ cache.find? n = some x := by
  have hreused := reused_renameVariables o p h hroot cache
  have hremember : (renameVariables o p t cache).2.2
      = remember (renameVariables o p t cache).2.1 cache := rfl
  rw [hremember]
  generalize (renameVariables o p t cache).2.1 = u at hreused ⊢
  obtain ⟨s, hs⟩ : ∃ s, t.scopes[root]? = some s :=
    ⟨_, Array.getElem?_eq_getElem hroot⟩
  have hus : u.scopes[root]? = some s := by
    rw [hreused.only.scopes]
    exact hs
  rw [remember_eq hus]
  have hname : ∀ e ∈ s.names, ∀ b, u.symbols[e.2]? = some b → b.name = e.1 := by
    rintro ⟨m, i⟩ he b hb
    have hdeclared := (h.tabled.mem_names_iff hs m i).mp he
    obtain ⟨kind, hhome⟩ := h.home?_of_declared? hdeclared
    have hsame := ((alike_cleared t).trans hreused.only.alike).home i
    rw [hhome, home?, hb, Option.map_some, Option.some.injEq] at hsame
    exact congrArg Home.name hsame
  have hmem : ∀ m y, (m, y) ∈ entries u s.names ↔
      ∃ i, t.declared? m root = some i ∧ newName? u i = some y := by
    intro m y
    unfold entries
    rw [List.mem_filterMap]
    constructor
    · rintro ⟨e, he, heq⟩
      obtain ⟨b, hb, hnew⟩ := Option.bind_eq_some_iff.mp heq
      obtain ⟨new, hnew, hpair⟩ := Option.map_eq_some_iff.mp hnew
      cases hpair
      rw [hname e he b hb]
      refine ⟨e.2, (h.tabled.mem_names_iff hs e.1 e.2).mp he, ?_⟩
      rw [newName?, hb]
      exact hnew
    · rintro ⟨i, hi, hnew⟩
      obtain ⟨b, hb, hnew⟩ := Option.bind_eq_some_iff.mp hnew
      have he := (h.tabled.mem_names_iff hs m i).mpr hi
      refine ⟨(m, i), he, ?_⟩
      rw [hb, Option.bind_some, hnew, Option.map_some, hname _ he b hb]
  have hkeys : ((entries u s.names).map (·.1)).Sublist (s.names.map (·.1)) := by
    have hsub : ∀ names : NameTable, (∀ e ∈ names, ∀ b, u.symbols[e.2]? = some b → b.name = e.1) →
        ((entries u names).map (·.1)).Sublist (names.map (·.1)) := by
      intro names
      induction names with
      | nil => exact fun _ => .slnil
      | cons e rest ih =>
        intro hall
        have hrest := ih fun e' he' => hall e' (List.mem_cons_of_mem _ he')
        unfold entries at hrest ⊢
        rw [List.filterMap_cons]
        split
        · exact hrest.cons _
        · next y hy =>
          obtain ⟨b, hb, hnew⟩ := Option.bind_eq_some_iff.mp hy
          obtain ⟨new, _, rfl⟩ := Option.map_eq_some_iff.mp hnew
          rw [List.map_cons, List.map_cons, hall e List.mem_cons_self b hb]
          exact hrest.cons_cons _
    exact hsub s.names hname
  have hnodup : ((entries u s.names).map (·.1)).Nodup := hkeys.nodup (h.tabled.nodup _ _ hs)
  rw [find?_insertAll hnodup, hmem]
  refine or_congr_right (and_congr_left fun _ => ?_)
  constructor
  · intro hnot i hi
    cases hnew : newName? u i with
    | none => rfl
    | some y => exact absurd (List.mem_map.mpr ⟨(n, y), (hmem n y).mpr ⟨i, hi, hnew⟩, rfl⟩) hnot
  · intro hnone hin
    obtain ⟨⟨m, y⟩, he, rfl⟩ := List.mem_map.mp hin
    obtain ⟨i, hi, hnew⟩ := (hmem m y).mp he
    rw [hnone i hi] at hnew
    cases hnew

/-- A name that a symbol of the outermost scope gets: that of an earlier run, or one
that is free. -/
theorem newName?_cases (hroot : 0 < t.scopes.size) (hi : t.declared? n root = some i)
    (hx : newName? (renameVariables o p t cache).2.1 i = some x) :
    i ∈ own (eligibleIn o t) (cleared t) root
      ∧ (cache.find? n = some x ∨ cachedName? cache (cleared t) i = none ∧ x ∉ o.reserved
        ∧ ∃ s, t.scopes[root]? = some s
          ∧ x ∉ takenNames o cache (cleared t) (eligibleIn o t) root s) := by
  have hreused := reused_renameVariables o p h hroot cache
  generalize (renameVariables o p t cache).2.1 = u at hreused hx
  have hmem : i ∈ own (eligibleIn o t) (cleared t) root := by
    by_contra hnot
    have hother : ¬ ∃ id, i ∈ own (eligibleIn o t) (cleared t) id := by
      rintro ⟨id, hid⟩
      obtain ⟨_, helig⟩ := (mem_own_iff h).mp hid
      exact hnot ((mem_own_iff h).mpr ⟨⟨n, hi⟩, helig⟩)
    rw [hreused.only.newName? hother, newName?_cleared] at hx
    cases hx
  refine ⟨hmem, ?_⟩
  have hcached : cachedName? cache (cleared t) i = cache.find? n := cachedName?_cleared h hi
  cases hc : cache.find? n with
  | some y =>
    have hsame := hreused.cached i hmem y (hcached.trans hc)
    exact .inl (congrArg some (Option.mem_unique hsame hx))
  | none =>
    obtain ⟨s, hs⟩ : ∃ s, t.scopes[root]? = some s :=
      ⟨_, Array.getElem?_eq_getElem hroot⟩
    obtain ⟨y, hy, htaken, hreserved⟩ := hreused.fresh s hs i hmem (hcached.trans hc)
    cases Option.mem_unique hy hx
    exact .inr ⟨hcached.trans hc, hreserved, s, hs, htaken⟩

theorem eq_of_newName?_eq (hroot : 0 < t.scopes.size) (hinj : cache.Injective)
    (hi : t.declared? n root = some i) (hx : newName? (renameVariables o p t cache).2.1 i = some x)
    (hm : cache.find? m = some x) : n = m := by
  obtain ⟨_, hc | ⟨_, _, s, _, hnot⟩⟩ := newName?_cases h hroot hi hx
  · exact hinj n m x hc hm
  · refine absurd ?_ hnot
    simp [takenNames, mem_newNames hm]

theorem eq_of_newName?_eq_newName? (hroot : 0 < t.scopes.size)
    (hinj : cache.Injective) {j : Nat} (hi : t.declared? m root = some i)
    (hj : t.declared? n root = some j) (hix : newName? (renameVariables o p t cache).2.1 i = some x)
    (hjx : newName? (renameVariables o p t cache).2.1 j = some x) : m = n := by
  obtain ⟨himem, hc | ⟨hinone, _⟩⟩ := newName?_cases h hroot hi hix
  · exact (eq_of_newName?_eq h hroot hinj hj hjx hc).symm
  obtain ⟨hjmem, hc | ⟨hjnone, _⟩⟩ := newName?_cases h hroot hj hjx
  · exact eq_of_newName?_eq h hroot hinj hi hix hc
  by_contra hne
  have hij : i ≠ j := by
    rintro rfl
    obtain ⟨kind, hhome⟩ := h.home?_of_declared? hi
    obtain ⟨kind', hhome'⟩ := h.home?_of_declared? hj
    rw [hhome] at hhome'
    exact hne (congrArg Home.name (Option.some.inj hhome'))
  exact (reused_renameVariables o p h hroot cache).differ i himem j hjmem hij hinone hjnone
    (hix.trans hjx.symm)

theorem keptBy_remember (hroot : 0 < t.scopes.size) :
    cache.KeptBy (renameVariables o p t cache).2.2 := by
  intro n x hx
  rw [find?_remember h hroot]
  by_cases hnone : ∀ i, t.declared? n root = some i →
      newName? (renameVariables o p t cache).2.1 i = none
  · exact .inr ⟨hnone, hx⟩
  · simp only [not_forall] at hnone
    obtain ⟨i, hi, hnew⟩ := hnone
    obtain ⟨y, hy⟩ := Option.ne_none_iff_exists'.mp hnew
    obtain ⟨_, hc | ⟨hc, _⟩⟩ := newName?_cases h hroot hi hy
    · cases Option.mem_unique hx hc
      exact .inl ⟨i, hi, hy⟩
    · rw [cachedName?_cleared h hi, hx] at hc
      cases hc

/-- After a run on variables no two names share a new name, if that was so before. -/
theorem injective_remember (hroot : 0 < t.scopes.size) (hinj : cache.Injective) :
    Renaming.Injective (renameVariables o p t cache).2.2 := by
  intro m n x hm hn
  rw [find?_remember h hroot] at hm hn
  rcases hm with ⟨i, hi, hix⟩ | ⟨_, hm⟩
  · rcases hn with ⟨j, hj, hjx⟩ | ⟨_, hn⟩
    · exact eq_of_newName?_eq_newName? h hroot hinj hi hj hix hjx
    · exact eq_of_newName?_eq h hroot hinj hi hix hn
  · rcases hn with ⟨j, hj, hjx⟩ | ⟨_, hn⟩
    · exact (eq_of_newName?_eq h hroot hinj hj hjx hm).symm
    · exact hinj m n x hm hn

end Remember

end Naming

/-! ## Properties -/

namespace Properties

variable {o : PropertyOptions} {cache : Renaming}

theorem complete_plain : Alphabet.plain.Complete := Alphabet.complete_ofFrequency _

/-- What is known while properties get new names: `first` is the table that the run
began with, `barred` the names that were taken then, and `done` the names so far. -/
structure Extends (first : Renaming) (barred : List String) (done : List String) (s : State) :
    Prop where
  kept : first.KeptBy s.cache
  injective : s.cache.Injective
  taken : ∀ n x, s.cache.find? n = some x → x ∈ s.taken
  still : ∀ x ∈ barred, x ∈ s.taken
  /-- A name of this run is one of the table or was free. -/
  new : ∀ n x, s.cache.find? n = some x → first.find? n = some x ∨ x ∉ barred
  /-- The names of this run are those of the table. -/
  table : ∀ n x, s.table.find? n = some x ↔ n ∈ done ∧ s.cache.find? n = some x
  found : ∀ n ∈ done, ∃ x, s.cache.find? n = some x

namespace Extends

variable {first : Renaming} {barred done : List String} {s : State}

theorem start (hinj : first.Injective) (hbarred : ∀ n x, first.find? n = some x → x ∈ barred) :
    Extends first barred [] { cache := first, taken := barred } where
  kept _ _ h := h
  injective := hinj
  taken := hbarred
  still _ h := h
  new _ _ h := .inl h
  table n x := by
    constructor
    · intro h
      cases h
    · rintro ⟨h, _⟩
      cases h
  found n h := by cases h

theorem insert (h : Extends first barred done s) {name new : String} {next : Nat}
    (hnew : s.cache.find? name = some new
      ∨ s.cache.find? name = none ∧ new ∉ s.taken) :
    Extends first barred (name :: done)
      { table := s.table.insert name new, cache := s.cache.insert name new
        taken := new :: s.taken, next } := by
  have hother : ∀ m, s.cache.find? m = some new → m = name := by
    intro m hm
    rcases hnew with hc | ⟨_, hnot⟩
    · exact h.injective m name new hm hc
    · exact absurd (h.taken m new hm) hnot
  have hsame : ∀ x, s.cache.find? name = some x → x = new := by
    intro x hx
    rcases hnew with hc | ⟨hnone, _⟩
    · exact Option.mem_unique hx hc
    · rw [hnone] at hx
      cases hx
  refine ⟨?_, ?_, ?_, ?_, ?_, ?_, ?_⟩
  · intro n x hx
    rw [find?_insert]
    split
    · next heq => rw [hsame x (heq ▸ h.kept n x hx)]
    · exact h.kept n x hx
  · intro m n x hm hn
    rw [find?_insert] at hm hn
    split at hm
    · next hmname =>
      cases hm
      split at hn
      · next hnname => exact hmname.trans hnname.symm
      · exact hmname.trans (hother n hn).symm
    · split at hn
      · next hnname =>
        cases hn
        exact (hother m hm).trans hnname.symm
      · exact h.injective m n x hm hn
  · intro n x hx
    rw [find?_insert] at hx
    split at hx
    · cases hx
      exact List.mem_cons_self
    · exact List.mem_cons_of_mem _ (h.taken n x hx)
  · exact fun x hx => List.mem_cons_of_mem _ (h.still x hx)
  · intro n x hx
    rw [find?_insert] at hx
    split at hx
    · next hn =>
      cases hx
      rcases hnew with hc | ⟨_, hnot⟩
      · exact hn ▸ h.new name new hc
      · exact .inr fun hin => hnot (h.still new hin)
    · exact h.new n x hx
  · intro n x
    rw [find?_insert, find?_insert, List.mem_cons]
    by_cases hn : n = name
    · simp [hn]
    · simp [hn, h.table]
  · intro n hn
    rw [find?_insert]
    by_cases hname : n = name
    · exact ⟨new, by simp [hname]⟩
    · obtain ⟨x, hx⟩ := h.found n ((List.mem_cons.mp hn).resolve_left hname)
      exact ⟨x, by simp [hname, hx]⟩

theorem step (h : Extends first barred done s) (name : String) :
    Extends first barred (name :: done) (renameOne s name) := by
  unfold renameOne
  cases hc : s.cache.find? name with
  | some cached => exact h.insert (.inl hc)
  | none => exact h.insert (.inr ⟨hc, (Alphabet.fresh_spec complete_plain s.taken s.next).2⟩)

theorem foldl (h : Extends first barred done s) (names : List String) :
    Extends first barred (names.reverse ++ done) (names.foldl renameOne s) := by
  induction names generalizing done s with
  | nil => exact h
  | cons name names ih => simpa using ih (h.step name)

end Extends

variable [PatternEngine]

/-- Whether the options let a property be renamed. -/
def isRenamed (o : PropertyOptions) (p : Program) (name : String) : Bool :=
  !(o.reserved ++ (if o.builtins then [] else builtinProperties)
      ++ (if o.keepQuoted then quotedNames p else [])).contains name
    && (o.pattern.bind PatternEngine.compile?).all fun isFoundIn => isFoundIn name

/-- The new names of all properties of a program that are renamed. -/
def newNames (o : PropertyOptions) (p : Program) (cache : Renaming) : State :=
  ((names p).filter (isRenamed o p)).foldl renameOne
    { cache, taken := (names p).filter (fun name => !isRenamed o p name) ++ cache.newNames }

/-- The pattern of the options, if there is one, can be read. -/
def Readable (o : PropertyOptions) : Prop :=
  ∀ text, o.pattern = some text → (PatternEngine.compile? text).isSome = true

/-- Options whose pattern can be read are not refused. -/
theorem renameProperties_of_readable (h : Readable o) (p : Program) (cache : Renaming) :
    renameProperties o p cache
      = .ok (renamed (newNames o p cache).table p, (newNames o p cache).cache) := by
  unfold renameProperties newNames isRenamed
  cases hp : o.pattern with
  | none => rfl
  | some text =>
    obtain ⟨pattern, hpattern⟩ := Option.isSome_iff_exists.mp (h text hp)
    dsimp only
    rw [hpattern, Option.bind_some, hpattern]
    rfl

theorem renameProperties_eq_ok {p q : Program} {props : Renaming}
    (h : renameProperties o p cache = .ok (q, props)) : props = (newNames o p cache).cache := by
  have hreadable : Readable o := by
    intro text hp
    cases hparse : PatternEngine.compile? text with
    | some pattern => rfl
    | none =>
      unfold renameProperties at h
      rw [hp] at h
      dsimp only at h
      rw [hparse] at h
      cases h
  rw [renameProperties_of_readable hreadable] at h
  cases h
  rfl

/-- New names extend the renaming of earlier runs. -/
theorem extends_newNames (o : PropertyOptions) (p : Program) (hinj : cache.Injective) :
    Extends cache ((names p).filter (fun name => !isRenamed o p name) ++ cache.newNames)
      ((names p).filter (isRenamed o p)).reverse (newNames o p cache) := by
  have hstart : Extends cache
      ((names p).filter (fun name => !isRenamed o p name) ++ cache.newNames) []
      { cache, taken := (names p).filter (fun name => !isRenamed o p name) ++ cache.newNames } :=
    .start hinj fun n x hx => List.mem_append_right _ (mem_newNames hx)
  have hend := hstart.foldl ((names p).filter (isRenamed o p))
  rwa [List.append_nil] at hend

end Properties

/-! ## Sessions -/

section Sessions

variable [PatternEngine]

/-- One run of renaming, with the names before and after it. -/
inductive NameCache.Run : NameCache → NameCache → Prop where
  /-- The variables of a resolved program are renamed. -/
  | ofVariables (c : NameCache) (o : RenameOptions) {ie8 : Bool} {p q : Program} {t : ScopeTree}
      (h : resolve ie8 p = .ok (q, t)) :
      Run c { c with vars := (renameVariables o q t c.vars).2.2 }
  /-- The properties of a program are renamed. -/
  | ofProperties (c : NameCache) (o : PropertyOptions) {p q : Program} {props : Renaming}
      (h : renameProperties o p c.props = .ok (q, props)) : Run c { c with props }
  /-- The pattern for the properties is refused. -/
  | refused (c : NameCache) (o : PropertyOptions) {p : Program} {e : Error}
      (h : renameProperties o p c.props = .error e) : Run c c

/-- Some runs lead from one cache to another. -/
def NameCache.Session : NameCache → NameCache → Prop := Relation.ReflTransGen NameCache.Run

end Sessions

/-- No two variables and no two properties share a new name. -/
def NameCache.Injective (c : NameCache) : Prop := c.vars.Injective ∧ c.props.Injective

/-- All new names of the first stay as they are. -/
def NameCache.KeptBy (c c' : NameCache) : Prop :=
  c.vars.KeptBy c'.vars ∧ c.props.KeptBy c'.props

theorem NameCache.injective_empty : ({} : NameCache).Injective := by
  constructor <;> intro m n x h <;> cases h

section Sessions

variable [PatternEngine]

namespace NameCache

variable {c c' : NameCache}

theorem Run.injective_and_kept (h : c.Run c') (hinj : c.Injective) :
    c'.Injective ∧ c.KeptBy c' := by
  cases h with
  | ofVariables o h =>
    obtain ⟨hresolved, _⟩ := resolved_of_resolve h
    have hroot := root_lt_of_resolve h
    exact ⟨⟨Naming.injective_remember hresolved hroot hinj.1, hinj.2⟩,
      Naming.keptBy_remember hresolved hroot, fun _ _ hx => hx⟩
  | @ofProperties o p q props h =>
    obtain rfl := Properties.renameProperties_eq_ok h
    have hextends := Properties.extends_newNames o p hinj.2
    exact ⟨⟨hinj.1, hextends.injective⟩, fun _ _ hx => hx, hextends.kept⟩
  | refused o h => exact ⟨hinj, fun _ _ hx => hx, fun _ _ hx => hx⟩

theorem Session.injective_and_kept (h : c.Session c') (hinj : c.Injective) :
    c'.Injective ∧ c.KeptBy c' := by
  induction h with
  | refl => exact ⟨hinj, fun _ _ hx => hx, fun _ _ hx => hx⟩
  | tail _ hrun ih =>
    obtain ⟨hmid, hkept⟩ := ih
    obtain ⟨hlast, hkept'⟩ := hrun.injective_and_kept hmid
    exact ⟨hlast, fun n x hx => hkept'.1 n x (hkept.1 n x hx),
      fun n x hx => hkept'.2 n x (hkept.2 n x hx)⟩

end NameCache

/-- In every session no two names share a new name, and later runs keep all new names. -/
theorem cache_stable_and_injective {c : NameCache} (h : NameCache.Session {} c) :
    (c.vars.Injective ∧ c.props.Injective)
      ∧ ∀ c', c.Run c' → c.vars.KeptBy c'.vars ∧ c.props.KeptBy c'.props := by
  obtain ⟨hinj, _⟩ := h.injective_and_kept NameCache.injective_empty
  exact ⟨hinj, fun c' hrun => (hrun.injective_and_kept hinj).2⟩

end Sessions

def letterVar : Program :=
  ⟨.nowhere, .script, [.varDecl ⟨.nowhere, .var,
    [⟨.nowhere, .ident ⟨.nowhere, "x", none⟩, some (.str ⟨.nowhere, "a", none⟩)⟩]⟩], [], none, []⟩

def letterVarTree : ScopeTree :=
  { scopes := #[⟨.global, none, [], [("x", 0)], [], false, false, false, false, false, false,
      .nowhere⟩]
    symbols := #[⟨"x", 0, .var, [], [], 0, false, false, false, none, none⟩] }

theorem resolve_letterVar :
    resolve false letterVar = .ok (letterVar.bindIdents [0], letterVarTree) := rfl

theorem renameVariables_letterVar :
    (renameVariables { toplevel := true } (letterVar.bindIdents [0]) letterVarTree []).2.2
      = [("x", "a")] := by
  have hfresh : ((Naming.alphabetFor (letterVar.bindIdents [0]) letterVarTree.symbols.toList).fresh
      [] 0).1 = "a" := by
    refine Alphabet.fresh_mostFrequent (c := 'a') (by decide +kernel) ?_ (by simp)
    decide +kernel
  have hrenamed : (letterVarTree.symbols.mapIdx fun id s =>
      if ({ toplevel := true } : RenameOptions).renames letterVarTree id s then [s]
      else []).toList.flatten
        = letterVarTree.symbols.toList := rfl
  unfold renameVariables
  dsimp only
  rw [hrenamed]
  generalize Naming.alphabetFor _ _ = a at hfresh
  delta Naming.renameScope Naming.renameOwn
  generalize a.fresh = fresh at hfresh
  rw [← hfresh]
  cbv

/-- The names after a run over `letterVar`. -/
def letterCache : NameCache := { vars := [("x", "a")] }

theorem session_letterCache : NameCache.Session {} letterCache := by
  have hrun := NameCache.Run.ofVariables {} { toplevel := true } resolve_letterVar
  rw [renameVariables_letterVar] at hrun
  exact .single hrun

/-- A later run keeps the name, whatever its program is. -/
theorem letterCache_stable_and_injective :
    NameCache.Session {} letterCache ∧ letterCache.vars.find? "x" = some "a" ∧
      ((letterCache.vars.Injective ∧ letterCache.props.Injective)
        ∧ ∀ c', letterCache.Run c' →
          letterCache.vars.KeptBy c'.vars ∧ letterCache.props.KeptBy c'.props) :=
  ⟨session_letterCache, rfl, cache_stable_and_injective session_letterCache⟩

end Laconic
