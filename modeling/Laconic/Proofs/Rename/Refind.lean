import Laconic.Proofs.Rename.Redeclare
import Laconic.Proofs.Rename.Safety

/-!
# Finding new names

A program whose symbols have new names is searched for them again.  A reference finds
its old symbol unless a scope on the way to it holds another symbol of that name
(`ScopeTree.Catches`).  The scope's own symbols have other names, but for two kinds
that no new name takes account of: symbols that another declaration of their scope
hides, and the arguments that a function gets as soon as their name is used in it.
-/

namespace Laconic

open ScopeEvent

namespace ScopeTree

/-! ## New names in scopes -/

/-- A scope keeps a reference to a symbol from its goal: under the names `ν` it holds
a hidden symbol of that name, or the arguments of a function. -/
def Catches (ν : Nat → String) (t : ScopeTree) (id i : Nat) : Prop :=
  (∃ j y, t.home? j = some y ∧ y.scope = id ∧ y.undeclared = false ∧ t.declared? y.name id ≠ some j
      ∧ ν j = ν i)
    ∨ ν i = "arguments" ∧ t.hasArguments id = true

/-- The scopes that a reference to a symbol leaves on the way to it. -/
def wayTo (x : Home) (path : List Nat) : List Nat :=
  if x.undeclared then path else path.takeWhile (· != x.scope)

/-- A reference does not come to its symbol. -/
def Caught (ν : Nat → String) (t : ScopeTree) (a : Site) : Prop :=
  a.declares = none ∧ ∃ i x, a.id.symbol = some i ∧ t.home? i = some x
    ∧ ∃ id ∈ wayTo x a.path, t.Catches ν id i

/-- A symbol is that of the arguments of a function, and its scope finds it. -/
def ArgumentsAt (t : ScopeTree) (i : Nat) (x : Home) : Prop :=
  x.kind = .arguments ∧ x.name = "arguments" ∧ t.hasArguments x.scope = true
    ∧ t.declared? x.name x.scope = some i

theorem ArgumentsAt.grows {t u : ScopeTree} {i : Nat} {x : Home} (h : t.ArgumentsAt i x)
    (hgrows : t.Grows u) : u.ArgumentsAt i x := by
  obtain ⟨hkind, hname, hargs, hfound⟩ := h
  refine ⟨hkind, hname, ?_, hgrows.declared _ _ _ hfound⟩
  rw [hasArguments, hgrows.frame]
  exact hargs

/-- What is known of a tree in the end, of the tree `u` in which all names were
declared, and of new names. -/
structure Settled (ν : Nat → String) (u t : ScopeTree) : Prop where
  resolved : t.Resolved
  grows : u.Grows t
  declared : ∀ i x, u.home? i = some x → x.undeclared = false ∧ x.kind ≠ .arguments
  shown : ∀ i x, u.home? i = some x → x.kind.isShadowable = false →
    u.declared? x.name x.scope = some i
  first : ∀ i j x y, u.home? i = some x → u.home? j = some y → x.kind.isShadowable = true →
    y.scope = x.scope → i ≤ j
  /-- Later on, only functions get new symbols, for their arguments. -/
  added : ∀ i x, u.symbols.size ≤ i → t.home? i = some x → x.undeclared = false →
    t.ArgumentsAt i x
  own : ∀ {id i j : Nat} {x : Home}, t.Owns id i → t.home? i = some x → x.kind ≠ .arguments →
    t.Sees id j → i ≠ j → ν i ≠ ν j
  /-- Hidden symbols, global symbols and arguments keep their names. -/
  keeps : ∀ i x, t.home? i = some x → (∀ id, ¬ t.Owns id i) ∨ x.kind = .arguments → ν i = x.name

namespace Settled

variable {ν : Nat → String} {u t : ScopeTree} {id j : Nat} {y : Home}
variable {i : Nat} {x : Home}

theorem home?_cases (h : Settled ν u t) (hx : t.home? i = some x) :
    u.home? i = some x ∨ u.symbols.size ≤ i := by
  by_cases hi : i < u.symbols.size
  · obtain ⟨y, hy⟩ := (lt_size_symbols_iff u i).mp hi
    have hsame := Option.mem_unique hx (h.grows.home i y hy)
    exact .inl (hsame ▸ hy)
  · exact .inr (by omega)

theorem arguments_iff (h : Settled ν u t) (hx : t.home? i = some x) (hund : x.undeclared = false) :
    x.kind = .arguments ↔ u.symbols.size ≤ i := by
  constructor
  · intro hkind
    rcases h.home?_cases hx with hu | hle
    · exact absurd hkind (h.declared i x hu).2
    · exact hle
  · exact fun hle => (h.added i x hle hx hund).1

theorem hidden_le (h : Settled ν u t) (hy : t.home? j = some y) (hund : y.undeclared = false)
    (hhidden : t.declared? y.name y.scope ≠ some j) (hx : t.home? i = some x)
    (hscope : x.scope = y.scope) : j ≤ i := by
  rcases h.home?_cases hy with hyu | hle
  · have hshadow : y.kind.isShadowable = true := by
      cases hshadow : y.kind.isShadowable with
      | true => rfl
      | false => exact absurd (h.grows.declared _ _ _ (h.shown j y hyu hshadow)) hhidden
    rcases h.home?_cases hx with hxu | hle
    · exact h.first j i y x hyu hxu hshadow hscope
    · have hlt := lt_size_of_home? hyu
      omega
  · exact absurd (h.added j y hle hy hund).2.2.2 hhidden

theorem own_le (h : Settled ν u t) (hi : t.Owns id i) (hy : t.home? j = some y)
    (hscope : y.scope = id) (hund : y.undeclared = false) (hν : ν j = ν i) : j ≤ i := by
  obtain ⟨x, hx, hxscope, hxund, hxfound⟩ := h.resolved.home?_of_owns hi
  subst hscope
  by_cases hfound : t.declared? y.name y.scope = some j
  · by_cases hij : i = j
    · exact Nat.le_of_eq hij.symm
    · by_cases hkind : x.kind = .arguments
      · by_cases hykind : y.kind = .arguments
        · -- there is one symbol for the arguments of a function
          have hxname := (h.added i x ((h.arguments_iff hx hxund).mp hkind) hx hxund).2.1
          have hyname := (h.added j y ((h.arguments_iff hy hund).mp hykind) hy hund).2.1
          rw [hxname] at hxfound
          rw [hyname, hxfound] at hfound
          exact absurd (Option.some.inj hfound) hij
        · exact absurd hν (h.own ⟨_, hfound⟩ hy hykind (.inl hi) (Ne.symm hij))
      · exact absurd hν.symm (h.own hi hx hkind (.inl ⟨_, hfound⟩) hij)
  · exact h.hidden_le hy hund hfound hx hxscope

/-- Under the new names, a search goes on after a scope just if the scope does not
catch it. -/
theorem passes_iff (h : Settled ν u t) {r s : ScopeTree} (hu : u.Grows r) (hgrows : r.Grows t)
    (htwin : r.Twin ν s) (htabled : s.Tabled) (hencl : t.Encloses id i) (hx : t.home? i = some x)
    (hout : x.undeclared = true ∨ x.scope ≠ id) : s.Passes (ν i) id ↔ ¬ t.Catches ν id i := by
  have hargs : s.hasArguments id = t.hasArguments id := by
    rw [htwin.hasArguments, hasArguments, hasArguments, hgrows.frame]
  unfold Passes
  rw [hargs]
  constructor
  · rintro ⟨hnone, hnot⟩ (⟨j, y, hy, rfl, hund, hhidden, hν⟩ | hcatch)
    · -- a hidden symbol was there when all names were declared
      have hyu : u.home? j = some y := by
        rcases h.home?_cases hy with hyu | hle
        · exact hyu
        · exact absurd (h.added j y hle hy hund).2.2.2 hhidden
      have hold : r.Declares y.scope y.name j := by
        refine declares_iff_home?.mpr ⟨y.kind, ?_⟩
        rw [hu.home j y hyu, ← hund]
      have hdeclares := htwin.declares hold
      obtain ⟨k, hk, _⟩ := htabled.exists_of_declares hdeclares
      rw [hν, hnone] at hk
      cases hk
    · exact hnot hcatch
  · intro hfree
    refine ⟨?_, fun hcatch => hfree (.inr hcatch)⟩
    cases hfound : s.declared? (ν i) id with
    | none => rfl
    | some j =>
      exfalso
      obtain ⟨hν, old, kind, hhome⟩ := htwin.of_declared? htabled hfound
      have hy := hgrows.home j _ hhome
      have hij : j ≠ i := by
        rintro rfl
        cases Option.mem_unique hx hy
        rcases hout with hund | hscope
        · cases hund
        · exact hscope rfl
      by_cases hshown : t.declared? old id = some j
      · by_cases hkind : kind = .arguments
        · obtain ⟨_, hname, hargs, _⟩ :=
            h.added j _ ((h.arguments_iff hy rfl).mp hkind) hy rfl
          have hkeeps := h.keeps j _ hy (.inr hkind)
          exact hfree (.inr ⟨hν.symm.trans (hkeeps.trans hname), hargs⟩)
        · exact h.own ⟨_, hshown⟩ hy hkind (.inr hencl) hij hν
      · exact hfree (.inl ⟨j, _, hy, rfl, rfl, hshown, hν⟩)

end Settled

namespace Twin

variable {ν : Nat → String} {t u : ScopeTree}

theorem withArguments (h : t.Twin ν u) {id : Nat} (hν : ν t.symbols.size = "arguments") :
    (t.withArguments id).Twin ν (u.withArguments id) := by
  have hframe : ∀ (v : ScopeTree) (scope : Nat), (v.withArguments id).frame? scope
      = v.frame? scope := by
    intro v scope
    refine (frame?_addSymbol _ "arguments" .arguments id .nowhere scope).trans ?_
    exact (alike_modifyScope v id (fun s => { s with usesArguments := true }) (fun _ => rfl)
      (fun _ => rfl) (fun _ => rfl)).frame scope
  refine ⟨fun scope => by rw [hframe, hframe, h.frame], fun i => ?_⟩
  rw [home?_withArguments, home?_withArguments, h.size_symbols]
  by_cases hi : i = t.symbols.size
  · rw [if_pos hi, if_pos hi, hi, Option.map_some, hν]
  · rw [if_neg hi, if_neg hi]
    exact h.home i

theorem withGlobal (h : t.Twin ν u) {name : String} (hν : ν t.symbols.size = name) :
    (t.withGlobal name).Twin ν (u.withGlobal name) := by
  refine ⟨h.frame, fun i => ?_⟩
  rw [home?_withGlobal, home?_withGlobal, h.size_symbols]
  by_cases hi : i = t.symbols.size
  · rw [if_pos hi, if_pos hi, hi, Option.map_some, hν]
  · rw [if_neg hi, if_neg hi]
    exact h.home i

end Twin

end ScopeTree

/-! ## The search -/

namespace Referring

open ScopeTree

variable {n scope : Nat} {name : String} {post pre stack : List Nat} {r : Referring} {t : ScopeTree}
  {x : Home} {id : Nat} {events : List ScopeEvent}

theorem mem_upTo_of_mem_wayTo (hchain : t.Chain stack)
    (hroot : x.undeclared = true → x.scope = root) (hid : id ∈ wayTo x stack) :
    id ∈ upTo x.scope stack := by
  unfold wayTo at hid
  split at hid
  · next hund =>
    rw [hroot hund, upTo_root hchain]
    exact hid
  · clear hchain
    induction stack with
    | nil => cases hid
    | cons first rest ih =>
      rw [List.takeWhile_cons] at hid
      rw [upTo]
      by_cases hfirst : first = x.scope
      · simp [hfirst] at hid
      · have hne : (first != x.scope) = true := by simpa using hfirst
        rw [hne, if_pos rfl, List.mem_cons] at hid
        rw [if_neg (by simpa using hfirst), List.mem_cons]
        exact hid.imp_right ih

theorem wayTo_prefix (x : Home) (stack : List Nat) : ∃ rest, stack = wayTo x stack ++ rest := by
  unfold wayTo
  split
  · exact ⟨[], (List.append_nil _).symm⟩
  · obtain ⟨rest, hrest⟩ := List.takeWhile_prefix (l := stack) (· != x.scope)
    exact ⟨rest, hrest.symm⟩

theorem out_of_mem_wayTo (h : id ∈ wayTo x stack) : x.undeclared = true ∨ x.scope ≠ id := by
  unfold wayTo at h
  split at h
  · next hund => exact .inl hund
  · have hall := List.all_eq_true.mp List.all_takeWhile id h
    exact .inr fun heq => by simp [heq] at hall

theorem wayTo_append (hund : x.undeclared = false) (h : x.scope ∉ pre) :
    wayTo x (pre ++ x.scope :: post) = pre := by
  rw [wayTo, hund, if_neg (by simp), List.takeWhile_append_of_pos]
  · simp
  · intro id hid
    have hne : id ≠ x.scope := fun heq => h (heq ▸ hid)
    simpa using hne

/-! ## References with old and new names -/

section Locate

variable {ν : Nat → String} {u t : ScopeTree} {r s : ScopeTree} {stack : List Nat} {name : String}
  {i : Nat} {x : Home}

theorem declared?_of_owns (h : Settled ν u t) (hs : s.Tabled) (htwin : r.Twin ν s)
    (hgrows : r.Grows t) {old : String} {kind : BindingKind}
    (hi : r.home? i = some ⟨old, scope, kind, false⟩) (hown : t.Owns scope i) :
    s.declared? (ν i) scope = some i := by
  have hdeclares := htwin.declares (declares_iff_home?.mpr ⟨kind, hi⟩)
  obtain ⟨k, hk, hle⟩ := hs.exists_of_declares hdeclares
  obtain ⟨hν, old', kind', hhome⟩ := htwin.of_declared? hs hk
  have hge := h.own_le hown (hgrows.home k _ hhome) rfl rfl hν
  rw [hk, Nat.le_antisymm hge hle]

/-- Where a function has yet to get its arguments, no new name stands for them. -/
theorem declared?_arguments_eq_none (h : Settled ν u t) (hr : r.Tabled) (hs : s.Tabled)
    (htwin : r.Twin ν s) (hgrows : r.Grows t)
    (hnone : r.declared? "arguments" scope = none) (hi : r.symbols.size ≤ i)
    (hfound : t.declared? "arguments" scope = some i) (hν : ν i = "arguments") :
    s.declared? "arguments" scope = none := by
  cases hk : s.declared? "arguments" scope with
  | none => rfl
  | some k =>
    exfalso
    obtain ⟨hνk, old, kind, hhome⟩ := htwin.of_declared? hs hk
    have hlt := lt_size_of_home? hhome
    have hy := hgrows.home k _ hhome
    by_cases hshown : t.declared? old scope = some k
    · by_cases hkind : kind = .arguments
      · have hname := (h.added k _ ((h.arguments_iff hy rfl).mp hkind) hy rfl).2.1
        have hold : old = "arguments" := hname
        rw [hold, hfound] at hshown
        have heq := Option.some.inj hshown
        omega
      · exact h.own ⟨_, hshown⟩ hy hkind (.inl ⟨_, hfound⟩) (by omega) (hνk.trans hν.symm)
    · have hhidden : ∀ id, ¬ t.Owns id k := by
        intro id hown
        obtain ⟨y, hy', hscope, _, hdeclared⟩ := h.resolved.home?_of_owns hown
        cases Option.mem_unique hy hy'
        rw [← hscope] at hdeclared
        exact hshown hdeclared
      have hkeeps : ν k = old := h.keeps k _ hy (.inl hhidden)
      have hdeclares : r.Declares scope "arguments" k := by
        rw [← hνk, hkeeps]
        exact declares_iff_home?.mpr ⟨kind, hhome⟩
      obtain ⟨j, hj, _⟩ := hr.exists_of_declares hdeclares
      rw [hnone] at hj
      cases hj

theorem keeps_of_undeclared (h : Settled ν u t) (hx : t.home? i = some x)
    (hund : x.undeclared = true) : ν i = x.name := by
  refine h.keeps i x hx (.inl fun id hown => ?_)
  obtain ⟨y, hy, _, hdeclared, _⟩ := h.resolved.home?_of_owns hown
  cases Option.mem_unique hx hy
  rw [hund] at hdeclared
  cases hdeclared

theorem locate_twin (h : Settled ν u t) (hr : r.Resolved) (hs : s.Resolved) (hu : u.Grows r)
    (htwin : r.Twin ν s) (hchain : r.Chain stack) (hi : (locate r name stack).2 = i)
    (hgrows : (locate r name stack).1.Grows t) (hx : t.home? i = some x)
    (hencl : ∀ id ∈ wayTo x stack, t.Encloses id i)
    (hfree : ∀ id ∈ wayTo x stack, ¬ t.Catches ν id i) :
    (locate s (ν i) stack).2 = i ∧ (locate r name stack).1.Twin ν (locate s (ν i) stack).1 := by
  have hgrows₀ : r.Grows t := (locate_spec hr name hchain).2.1.trans hgrows
  have hpass : ∀ id ∈ wayTo x stack, s.Passes (ν i) id := fun id hid =>
    (h.passes_iff hu hgrows₀ htwin hs.tabled (hencl id hid) hx (out_of_mem_wayTo hid)).mpr
      (hfree id hid)
  rcases passes_split r name stack with hall | ⟨pre, scope, post, rfl, hpre, hstops⟩
  · rw [locate_global hall] at hi hgrows ⊢
    cases hfind : r.globals.find? name with
    | some j =>
      rw [hfind] at hi hgrows
      cases hi
      obtain ⟨y, hy, hund, hname⟩ := (hr.globals name j).mp hfind
      cases Option.mem_unique hx (hgrows.home j y hy)
      have hway : wayTo x stack = stack := by rw [wayTo, hund, if_pos rfl]
      rw [hway] at hpass
      have hfind' : s.globals.find? (ν j) = some j :=
        (hs.globals _ _).mpr ⟨_, htwin.home_some hy, hund, rfl⟩
      rw [locate_global hpass, hfind']
      exact ⟨rfl, htwin⟩
    | none =>
      rw [hfind] at hi hgrows
      cases hi
      have hhome : (r.withGlobal name).home? r.symbols.size = some ⟨name, root, .global, true⟩ :=
        (home?_withGlobal r name _).trans (if_pos rfl)
      cases Option.mem_unique hx (hgrows.home _ _ hhome)
      have hν : ν r.symbols.size = name := keeps_of_undeclared h hx rfl
      have hfind' : s.globals.find? name = none := by
        cases hk : s.globals.find? name with
        | none => rfl
        | some k =>
          exfalso
          obtain ⟨y, hy, hund, hname⟩ := (hs.globals _ _).mp hk
          obtain ⟨z, hz, rfl⟩ := htwin.exists_home hy
          have hkeeps := keeps_of_undeclared h (hgrows₀.home k z hz) hund
          have hfound := (hr.globals name k).mpr ⟨z, hz, hund, hkeeps.symm.trans hname⟩
          rw [hfind] at hfound
          cases hfound
      have hway : wayTo ⟨name, root, .global, true⟩ stack = stack := rfl
      rw [hway, hν] at hpass
      rw [hν, locate_global hpass, hfind', htwin.size_symbols]
      exact ⟨rfl, htwin.withGlobal hν⟩
  · have hnot : scope ∉ pre := by
      intro hmem
      exact (List.nodup_append.mp hchain.nodup).2.2 scope hmem scope (by simp) rfl
    rcases locate_of_not_passes hpre hstops post with
      ⟨j, hfound, heq⟩ | ⟨hnone, rfl, hargs, heq⟩
    · rw [heq] at hi hgrows ⊢
      cases hi
      obtain ⟨kind, hhome⟩ := hr.home?_of_declared? hfound
      cases Option.mem_unique hx (hgrows.home _ _ hhome)
      rw [wayTo_append rfl hnot] at hpass
      have hfound' := declared?_of_owns h hs.tabled htwin hgrows hhome
        ⟨name, hgrows.declared _ _ _ hfound⟩
      rw [locate_found hpass hfound']
      exact ⟨rfl, htwin⟩
    · rw [heq] at hi hgrows ⊢
      cases hi
      obtain ⟨_, _, hfound, hhome⟩ :=
        hr.withArguments (hchain.lt_size scope (by simp)) hnone hargs
      cases Option.mem_unique hx (hgrows.home _ _ hhome)
      rw [wayTo_append rfl hnot] at hpass
      have hν : ν r.symbols.size = "arguments" := h.keeps _ _ hx (.inr rfl)
      have hnone' := declared?_arguments_eq_none h hr.tabled hs.tabled htwin hgrows₀ hnone
        (Nat.le_refl _) (hgrows.declared _ _ _ hfound) hν
      rw [hν] at hpass ⊢
      rw [locate_arguments hpass hnone' ((htwin.hasArguments scope).trans hargs),
        htwin.size_symbols]
      exact ⟨rfl, htwin.withArguments hν⟩

/-- A reference that a scope catches finds another symbol, and one of both was there
before. -/
theorem locate_caught (h : Settled ν u t) (hs : s.Resolved) (hu : u.Grows r) (hgrows : r.Grows t)
    (htwin : r.Twin ν s) (hx : t.home? i = some x) (hencl : ∀ id ∈ wayTo x stack, t.Encloses id i)
    (hcaught : ∃ id ∈ wayTo x stack, t.Catches ν id i) :
    (locate s (ν i) stack).2 ≠ i
      ∧ ((locate s (ν i) stack).2 < r.symbols.size ∨ i < r.symbols.size) := by
  obtain ⟨id, hid, hcatches⟩ := hcaught
  obtain ⟨rest, hrest⟩ := wayTo_prefix x stack
  rcases passes_split s (ν i) (wayTo x stack) with hall | ⟨pre, scope, post, hsplit, hpre, hstops⟩
  · refine absurd hcatches ?_
    exact (h.passes_iff hu hgrows htwin hs.tabled (hencl id hid) hx (out_of_mem_wayTo hid)).mp
      (hall id hid)
  have hmem : scope ∈ wayTo x stack := by simp [hsplit]
  have hout := out_of_mem_wayTo hmem
  have hstack : stack = pre ++ scope :: (post ++ rest) := by
    rw [hrest, hsplit, List.append_assoc, List.cons_append]
  rw [hstack]
  rcases locate_of_not_passes hpre hstops (post ++ rest) with
    ⟨j, hfound, heq⟩ | ⟨_, hν, hargs, heq⟩
  · obtain ⟨_, old, kind, hhome⟩ := htwin.of_declared? hs.tabled hfound
    rw [heq]
    refine ⟨?_, .inl (lt_size_of_home? hhome)⟩
    rintro rfl
    cases Option.mem_unique hx (hgrows.home _ _ hhome)
    rcases hout with hund | hscope
    · cases hund
    · exact hscope rfl
  · have hlt : i < r.symbols.size := by
      by_contra hge
      have hle : u.symbols.size ≤ i := by
        by_contra hlt
        obtain ⟨y, hy⟩ := (lt_size_symbols_iff u i).mp (by omega)
        exact hge (lt_size_of_home? (hu.home i y hy))
      have hkeeps : ν i = x.name := by
        cases hund : x.undeclared with
        | true => exact keeps_of_undeclared h hx hund
        | false => exact h.keeps i x hx (.inr (h.added i x hle hx hund).1)
      -- the old name was looked for in the same scope
      obtain ⟨y, f, hy, _, hcase⟩ := h.resolved.enclosed scope i (hencl scope hmem)
      cases Option.mem_unique hx hy
      rcases hcase with hown | ⟨hpasses, _⟩
      · obtain ⟨kind, hhome⟩ := h.resolved.home?_of_declared? hown
        rw [Option.mem_unique hx hhome] at hout
        rcases hout with hund | hscope
        · cases hund
        · exact hscope rfl
      · refine hpasses.2 ⟨hkeeps.symm.trans hν, ?_⟩
        rw [← hargs, htwin.hasArguments, hasArguments, hasArguments, hgrows.frame]
    rw [heq, htwin.size_symbols]
    exact ⟨Nat.ne_of_gt hlt, .inr hlt⟩

theorem home?_locate (t : ScopeTree) (name : String) (stack : List Nat) {j : Nat}
    (hj : j ≠ (locate t name stack).2) : (locate t name stack).1.home? j = t.home? j := by
  rcases locate_cases t name stack with ⟨i, heq⟩ | ⟨scope, heq⟩ | heq
  · rw [heq]
  · rw [heq] at hj ⊢
    exact (home?_withArguments t scope j).trans (if_neg hj)
  · rw [heq] at hj ⊢
    exact (home?_withGlobal t name j).trans (if_neg hj)

end Locate

/-! ## Two runs in step -/

/-- Two runs over the names of a program, the second one with the names `ν`. -/
structure Twin (ν : Nat → String) (r s : Referring) : Prop where
  tree : r.tree.Twin ν s.tree
  stack : s.stack = r.stack
  next : s.next = r.next
  symbols : s.symbols = r.symbols

/-- Every symbol has come out or is still to come out of a declaration. -/
def Known (r : Referring) (events : List ScopeEvent) : Prop :=
  ∀ j x, r.tree.home? j = some x → j ∈ r.symbols ∨ j ∈ events.filterMap declared?

def Differ (symbols symbols' : List Nat) : Prop :=
  ∃ (m n i j i' j' : Nat), symbols[m]? = some i ∧ symbols[n]? = some j ∧ symbols'[m]? = some i'
    ∧ symbols'[n]? = some j' ∧ ¬ (i = j ↔ i' = j')

namespace Twin

variable {ν : Nat → String} {u t : ScopeTree} {r s : Referring} {g : Ident → Ident}
  {events rest : List ScopeEvent}
variable {ev : ScopeEvent} {r : Referring}

theorem spot_eq (h : Twin ν r s) : s.spot = r.spot := by
  rw [spot, spot, h.stack, h.next]

/-- Trees that have not changed but for what the resolution of names does not see. -/
theorem of_same (h : Twin ν r s) {r' s' : Referring} (htree : r.tree.Alike r'.tree)
    (htree' : s.tree.Alike s'.tree) (hspot : r'.spot = s'.spot)
    (hsymbols : s'.symbols = r'.symbols) : Twin ν r' s' where
  tree := by
    refine ⟨fun id => ?_, fun i => ?_⟩
    · rw [htree.frame, htree'.frame, h.tree.frame]
    · rw [htree.home, htree'.home, h.tree.home]
  stack := (congrArg Spot.stack hspot).symm
  next := (congrArg Spot.next hspot).symm
  symbols := hsymbols

/-- An event that is no reference. -/
theorem plain (h : Twin ν r s) (hsymbol : ∀ id, (g id).symbol = id.symbol)
    (hrefer : ∀ id access exported, ev ≠ .refer id access exported) :
    s.emits (ev.withIdent g) = r.emits ev ∧ Twin ν (r.step ev) (s.step (ev.withIdent g)) := by
  obtain ⟨htree, htree', hspot, hemits⟩ : r.searched ev = r.tree
      ∧ s.searched (ev.withIdent g) = s.tree ∧ r.spot.step (ev.withIdent g) = r.spot.step ev
      ∧ s.emits (ev.withIdent g) = r.emits ev := by
    cases ev with
    | declare id => exact ⟨rfl, rfl, rfl, congrArg Option.toList (hsymbol id)⟩
    | refer id access exported => exact absurd rfl (hrefer id access exported)
    | enter | leave | this => exact ⟨rfl, rfl, rfl, rfl⟩
  refine ⟨hemits, h.of_same ?_ ?_ ?_ ?_⟩
  · exact htree ▸ (alike_step r ev).1
  · exact htree' ▸ (alike_step s (ev.withIdent g)).1
  · rw [spot_step, spot_step, h.spot_eq, hspot]
  · refine Array.toList_inj.mp ?_
    rw [symbols_step, symbols_step, hemits, h.symbols]

theorem refer (h : Twin ν r s) (id id' : Ident) (access : Access) (exported : Bool)
    (hfound : (locate s.tree id'.name s.stack).2 = (locate r.tree id.name r.stack).2)
    (htree : (locate r.tree id.name r.stack).1.Twin ν (locate s.tree id'.name s.stack).1) :
    Twin ν (r.step (.refer id access exported)) (s.step (.refer id' access exported)) := by
  have hspot : (r.step (.refer id access exported)).spot
      = (s.step (.refer id' access exported)).spot := by
    rw [spot_step, spot_step, h.spot_eq]
    rfl
  obtain ⟨crossed, heq⟩ := refer_eq r id access
  obtain ⟨crossed', heq'⟩ := refer_eq s id' access
  simp only [step, heq, heq', hfound, exportName_some] at hspot ⊢
  generalize hi : (locate r.tree id.name r.stack).2 = i at hspot hfound ⊢
  obtain ⟨hhome, hframe, _⟩ :=
    settle_keeps r id access crossed (locate r.tree id.name r.stack).1 i
  obtain ⟨hhome', hframe', _⟩ :=
    settle_keeps s id' access crossed' (locate s.tree id'.name s.stack).1 i
  have hmarked : ∀ (v : ScopeTree) (j : Nat),
      (if exported then v.markExported i else v).home? j = v.home? j := by
    intro v j
    split
    · exact Declaring.home?_markExported v i j
    · rfl
  have hmarkedFrame : ∀ (v : ScopeTree) (scope : Nat),
      (if exported then v.markExported i else v).frame? scope = v.frame? scope := by
    intro v scope
    split <;> rfl
  exact {
    tree := by
      refine ⟨fun scope => ?_, fun j => ?_⟩
      · rw [hmarkedFrame, hmarkedFrame, hframe, hframe', htree.frame]
      · rw [hmarked, hmarked, hhome, hhome', htree.home]
    stack := h.stack
    next := h.next
    symbols := by simp only [h.symbols] }

theorem encloses_of_refer (hr : r.Inv) (id : Ident) (access : Access) (exported : Bool)
    (hgrows : (r.step (.refer id access exported)).tree.Grows t) :
    (locate r.tree id.name r.stack).1.Grows t
      ∧ ∃ x, t.home? (locate r.tree id.name r.stack).2 = some x
        ∧ ∀ scope ∈ wayTo x r.stack, t.Encloses scope (locate r.tree id.name r.stack).2 := by
  obtain ⟨crossed, heq⟩ := refer_eq r id access
  have hmarked := (alike_step r (.refer id access exported)).1.grows.trans hgrows
  rw [searched, heq] at hmarked
  obtain ⟨hresolved, hgrows₀, hlocated⟩ := locate_spec hr.resolved id.name hr.chain
  have hchain := hgrows₀.chain hr.chain
  generalize locate r.tree id.name r.stack = found at *
  obtain ⟨_, hsettled⟩ := settle_spec hresolved hchain hlocated access crossed
  obtain ⟨_, _, _, hencloses⟩ := settle_keeps r id access crossed found.1 found.2
  obtain ⟨x, hx, _⟩ := hlocated.home? hresolved
  refine ⟨hsettled.trans hmarked, x, (hsettled.trans hmarked).home _ _ hx, ?_⟩
  intro scope hscope
  have hmem := mem_upTo_of_mem_wayTo hchain (hresolved.undeclared _ _ hx).2 hscope
  obtain ⟨rest, hrest⟩ := wayTo_prefix x r.stack
  have hlt := hchain.lt_size scope (by rw [hrest]; exact List.mem_append_left _ hscope)
  exact hmarked.encloses _ _ (hencloses x hx scope hmem hlt)

/-- One event in both runs: they stay in step, or a reference is caught and comes to
another symbol. -/
theorem step (h : Twin ν r s) (hsettled : Settled ν u t) (hr : r.Inv) (hs : s.Inv)
    (hu : u.Grows r.tree) (hgrows : (r.step ev).tree.Grows t)
    (hsymbol : ∀ id, (g id).symbol = id.symbol)
    (hg : ∀ a ∈ (ev.site? r.spot).toList, ∀ i, a.id.symbol = some i → (g a.id).name = ν i)
    (hlabel : ∀ id, ev.ident? = some id → ∃ i, id.symbol = some i ∧ r.emits ev = [i]) :
    ((∀ a ∈ (ev.site? r.spot).toList, ¬ t.Caught ν a)
        ∧ s.emits (ev.withIdent g) = r.emits ev ∧ Twin ν (r.step ev) (s.step (ev.withIdent g)))
      ∨ (∃ a ∈ (ev.site? r.spot).toList, t.Caught ν a)
        ∧ ∃ i j, r.emits ev = [i] ∧ s.emits (ev.withIdent g) = [j] ∧ i ≠ j
          ∧ (j < r.tree.symbols.size ∨ i < r.tree.symbols.size) := by
  cases ev with
  | enter | leave | this => exact .inl ⟨by simp [site?], h.plain hsymbol (by simp)⟩
  | declare id kind exported loop =>
    refine .inl ⟨?_, h.plain hsymbol (by simp)⟩
    rintro a ha ⟨hnone, _⟩
    cases List.mem_singleton.mp ha
    cases hnone
  | refer id access exported =>
    obtain ⟨i, hi, hemits⟩ := hlabel id rfl
    have hemitted : ∀ (r : Referring) (id : Ident),
        r.emits (.refer id access exported) = [(locate r.tree id.name r.stack).2] := by
      intro r id
      obtain ⟨crossed, heq⟩ := refer_eq r id access
      simp only [emits, heq]
    have hfound : (locate r.tree id.name r.stack).2 = i := by
      rw [hemitted] at hemits
      exact List.singleton_inj.mp hemits
    obtain ⟨hgrows₁, x, hx, hencl⟩ := encloses_of_refer hr id access exported hgrows
    rw [hfound] at hx hencl
    have hname : (g id).name = ν i := hg _ (List.mem_singleton.mpr rfl) i hi
    have hcaught : t.Caught ν ⟨r.stack, id, none⟩
        ↔ ∃ scope ∈ wayTo x r.stack, t.Catches ν scope i := by
      constructor
      · rintro ⟨_, i', x', hi', hx', hcatch⟩
        cases Option.mem_unique hi hi'
        cases Option.mem_unique hx hx'
        exact hcatch
      · exact fun hcatch => ⟨rfl, i, x, hi, hx, hcatch⟩
    simp only [site?, spot, Option.toList_some, List.mem_singleton, forall_eq,
      exists_eq_left, hcaught, hemitted, withIdent, hfound, hname, h.stack]
    by_cases hcatch : ∃ scope ∈ wayTo x r.stack, t.Catches ν scope i
    · refine .inr ⟨hcatch, i, _, rfl, rfl, ?_⟩
      have hgrows₀ := (locate_spec hr.resolved id.name hr.chain).2.1.trans hgrows₁
      obtain ⟨hne, hlt⟩ := locate_caught hsettled hs.resolved hu hgrows₀ h.tree hx hencl hcatch
      exact ⟨hne.symm, hlt⟩
    · have hfree : ∀ scope ∈ wayTo x r.stack, ¬ t.Catches ν scope i :=
        fun scope hscope hcatches => hcatch ⟨scope, hscope, hcatches⟩
      obtain ⟨hsame, htree⟩ := locate_twin hsettled hr.resolved hs.resolved hu h.tree hr.chain
        hfound hgrows₁ hx hencl hfree
      refine .inl ⟨hcatch, by rw [hsame], h.refer id (g id) access exported ?_ ?_⟩
      · rw [hname, h.stack, hsame, hfound]
      · rw [hname, h.stack]
        exact htree

/-! ## Whole runs -/

theorem length_emits (r s : Referring) (hsymbol : ∀ id, (g id).symbol = id.symbol)
    (ev : ScopeEvent) : (s.emits (ev.withIdent g)).length = (r.emits ev).length := by
  cases ev with
  | declare id => simp only [withIdent, emits, hsymbol]
  | enter | leave | refer | this => rfl

theorem length_emitted_eq (r s : Referring) (hsymbol : ∀ id, (g id).symbol = id.symbol)
    (events : List ScopeEvent) :
    (s.emitted (events.map (withIdent g))).length = (r.emitted events).length := by
  induction events generalizing r s with
  | nil => rfl
  | cons ev rest ih =>
    rw [List.map_cons, emitted, emitted, List.length_append, List.length_append,
      length_emits r s hsymbol ev, ih]

/-- What is declared comes out of both runs at the same places, whatever becomes of
the references. -/
theorem emitted_declared {k : Nat} (hk : k ∈ events.filterMap declared?)
    (hsymbol : ∀ id, (g id).symbol = id.symbol) (r s : Referring) :
    ∃ n : Nat, (r.emitted events)[n]? = some k
      ∧ (s.emitted (events.map (withIdent g)))[n]? = some k := by
  induction events generalizing r s with
  | nil => cases hk
  | cons ev rest ih =>
    have hlength := length_emits r s hsymbol ev
    simp only [emitted, List.map_cons]
    obtain ⟨e, he, hdeclared⟩ := List.mem_filterMap.mp hk
    rcases List.mem_cons.mp he with rfl | he
    · refine ⟨0, ?_⟩
      cases e with
      | declare id =>
        have hid : id.symbol = some k := hdeclared
        simp [emits, withIdent, hsymbol, hid]
      | enter | leave | refer | this => cases hdeclared
    · obtain ⟨n, hn, hn'⟩ := ih (List.mem_filterMap.mpr ⟨e, he, hdeclared⟩) (r.step ev)
        (s.step (ev.withIdent g))
      refine ⟨(r.emits ev).length + n, ?_, ?_⟩
      · rw [List.getElem?_append_right (by omega), Nat.add_sub_cancel_left]
        exact hn
      · rw [← hlength, List.getElem?_append_right (by omega), Nat.add_sub_cancel_left]
        exact hn'

theorem known_step (h : r.Known (ev :: rest)) : (r.step ev).Known rest := by
  intro j x hx
  rw [← Array.mem_toList_iff, symbols_step, List.mem_append, Array.mem_toList_iff]
  rw [(alike_step r ev).1.home] at hx
  cases ev with
  | declare id =>
    refine (h j x hx).elim (.inl ∘ .inl) fun hj => ?_
    obtain ⟨e, he, hdeclared⟩ := List.mem_filterMap.mp hj
    rcases List.mem_cons.mp he with rfl | he
    · exact .inl (.inr (Option.mem_toList.mpr hdeclared))
    · exact .inr (List.mem_filterMap.mpr ⟨e, he, hdeclared⟩)
  | refer id access exported =>
    obtain ⟨crossed, heq⟩ := refer_eq r id access
    simp only [searched, emits, heq, List.mem_singleton] at hx ⊢
    rw [(settle_keeps r id access crossed _ _).1] at hx
    by_cases hj : j = (locate r.tree id.name r.stack).2
    · exact .inl (.inr hj)
    · rw [home?_locate _ _ _ hj] at hx
      exact (h j x hx).imp_left .inl
  | enter | leave | this => exact (h j x hx).imp_left .inl

/-- A reference that comes to another symbol tells names apart that were one, or the
other way round. -/
theorem differ_of_emits (h : Twin ν r s) (hknown : r.Known (ev :: rest))
    (hsymbol : ∀ id, (g id).symbol = id.symbol) {i j : Nat} (hi : r.emits ev = [i])
    (hj : s.emits (ev.withIdent g) = [j]) (hij : i ≠ j)
    (hlt : j < r.tree.symbols.size ∨ i < r.tree.symbols.size) :
    Differ (r.symbols.toList ++ r.emitted (ev :: rest))
      (s.symbols.toList ++ s.emitted ((ev :: rest).map (withIdent g))) := by
  -- a symbol that was there has come out of both runs at one place, or will do so
  have hplace : ∀ k < r.tree.symbols.size, ∃ n : Nat,
      (r.symbols.toList ++ r.emitted (ev :: rest))[n]? = some k
        ∧ (s.symbols.toList ++ s.emitted ((ev :: rest).map (withIdent g)))[n]? = some k := by
    intro k hk
    obtain ⟨x, hx⟩ := (lt_size_symbols_iff r.tree k).mp hk
    rw [h.symbols]
    rcases hknown k x hx with hpast | hcoming
    · obtain ⟨n, hn, hget⟩ := List.mem_iff_getElem.mp (Array.mem_toList_iff.mpr hpast)
      refine ⟨n, ?_, ?_⟩ <;>
        rw [List.getElem?_append_left hn, List.getElem?_eq_getElem hn, hget]
    · obtain ⟨n, hn, hn'⟩ := emitted_declared hcoming hsymbol r s
      refine ⟨r.symbols.toList.length + n, ?_, ?_⟩ <;>
        rwa [List.getElem?_append_right (by omega), Nat.add_sub_cancel_left]
  have hhere : (r.symbols.toList ++ r.emitted (ev :: rest))[r.symbols.toList.length]? = some i := by
    rw [List.getElem?_append_right (by omega), Nat.sub_self, emitted, hi]
    rfl
  have hhere' : (s.symbols.toList ++ s.emitted ((ev :: rest).map (withIdent g)))[
      r.symbols.toList.length]? = some j := by
    rw [h.symbols, List.getElem?_append_right (by omega), Nat.sub_self, List.map_cons, emitted, hj]
    rfl
  rcases hlt with hlt | hlt
  · obtain ⟨n, hn, hn'⟩ := hplace j hlt
    exact ⟨_, n, i, j, j, j, hhere, hn, hhere', hn', by simp [hij]⟩
  · obtain ⟨n, hn, hn'⟩ := hplace i hlt
    exact ⟨_, n, i, i, j, i, hhere, hn, hhere', hn', by simp [hij.symm]⟩

/-- All events in both runs: if no reference is caught they come to the same symbols,
and otherwise they tell names apart differently. -/
theorem run (h : Twin ν r s) (hsettled : Settled ν u t) (hr : r.Ready events) (hs : s.Inv)
    (hu : u.Grows r.tree) (hgrows : (events.foldl Referring.step r).tree.Grows t)
    (hsymbol : ∀ id, (g id).symbol = id.symbol)
    (hg : ∀ a ∈ sites r.spot events, ∀ i, a.id.symbol = some i → (g a.id).name = ν i)
    (hlabel : r.Labelled events) (hknown : r.Known events) :
    ((∀ a ∈ sites r.spot events, ¬ t.Caught ν a)
        ∧ s.emitted (events.map (withIdent g)) = r.emitted events)
      ∨ (∃ a ∈ sites r.spot events, t.Caught ν a)
        ∧ Differ (r.symbols.toList ++ r.emitted events)
          (s.symbols.toList ++ s.emitted (events.map (withIdent g))) := by
  induction events generalizing r s with
  | nil => exact .inl ⟨by simp [sites], rfl⟩
  | cons ev rest ih =>
    obtain ⟨hr₁, hgrows₁⟩ := hr.step
    have hend : (r.step ev).tree.Grows t := hr₁.run.2.trans hgrows
    simp only [sites, List.mem_append]
    rcases h.step hsettled hr.inv hs hu hend hsymbol (fun a ha => hg a (List.mem_append_left _ ha))
      hlabel.1 with
      ⟨hfree, hemits, htwin⟩ | ⟨⟨a, ha, hcaught⟩, i, j, hi, hj, hij, hlt⟩
    · have hs₁ : (s.step (ev.withIdent g)).Inv := by
        refine (hs.step ?_ ?_).1
        · rw [h.spot_eq]
          have hbegins := hr.builds.1
          cases ev with
          | enter kind loc strict =>
            obtain ⟨f, hf, hrest⟩ := hbegins
            exact ⟨f, (h.tree.frame _).trans hf, hrest⟩
          | leave | declare | refer | this => trivial
        · rw [h.stack]
          intro hev
          refine hr.leave ?_
          cases ev with
          | leave => rfl
          | enter | declare | refer | this => cases hev
      have hrest := ih htwin hr₁ hs₁ (hu.trans hgrows₁) hgrows
        (fun a ha => hg a (List.mem_append_right _ (spot_step r ev ▸ ha))) hlabel.2
        (known_step hknown)
      rw [spot_step] at hrest
      rcases hrest with ⟨hfree', hemitted⟩ | ⟨⟨a, ha, hcaught⟩, hdiffer⟩
      · refine .inl ⟨fun a ha => ha.elim (hfree a) (hfree' a), ?_⟩
        rw [List.map_cons, emitted, emitted, hemits, hemitted]
      · refine .inr ⟨⟨a, .inr ha, hcaught⟩, ?_⟩
        rw [symbols_step, symbols_step, List.append_assoc, List.append_assoc] at hdiffer
        exact hdiffer
    · exact .inr ⟨⟨a, .inl ha, hcaught⟩, h.differ_of_emits hknown hsymbol hi hj hij hlt⟩

end Twin

/-! ## What a run adds -/

/-- From some number on, all symbols that scopes declare are those of arguments. -/
def Added (n : Nat) (t : ScopeTree) : Prop :=
  ∀ i x, n ≤ i → t.home? i = some x → x.undeclared = false → t.ArgumentsAt i x

theorem Added.grows {u : ScopeTree} (h : Added n t) (hgrows : t.Grows u)
    (hnew : ∀ i x, u.home? i = some x → x.undeclared = false →
      t.home? i = some x ∨ u.ArgumentsAt i x) :
    Added n u := by
  intro i x hi hx hund
  rcases hnew i x hx hund with hold | harguments
  · exact (h i x hi hold hund).grows hgrows
  · exact harguments

theorem Added.locate (h : Added n t) (hresolved : t.Resolved) (hchain : t.Chain stack)
    (name : String) : Added n (Referring.locate t name stack).1 := by
  obtain ⟨_, hgrows, _⟩ := locate_spec hresolved name hchain
  rcases passes_split t name stack with hall | ⟨pre, scope, post, rfl, hpre, hstops⟩
  · rw [locate_global hall] at hgrows ⊢
    cases hfind : t.globals.find? name with
    | some j => exact h
    | none =>
      rw [hfind] at hgrows
      refine h.grows hgrows fun i x hx hund => .inl ?_
      rw [home?_withGlobal] at hx
      split at hx
      · cases hx
        cases hund
      · exact hx
  · rcases locate_of_not_passes hpre hstops post with ⟨j, _, heq⟩ | ⟨hnone, rfl, hargs, heq⟩
    · rw [heq]
      exact h
    · rw [heq] at hgrows ⊢
      obtain ⟨_, _, hfound, _⟩ :=
        hresolved.withArguments (hchain.lt_size scope (by simp)) hnone hargs
      refine h.grows hgrows fun i x hx _ => ?_
      rw [home?_withArguments] at hx
      split at hx
      · next hi =>
        cases hx
        refine .inr ⟨rfl, rfl, ?_, hi ▸ hfound⟩
        rw [hasArguments, hgrows.frame]
        exact hargs
      · exact .inl hx

theorem Added.step {ev : ScopeEvent} (h : Added n r.tree) (hr : r.Inv) :
    Added n (r.step ev).tree := by
  obtain ⟨halike, _⟩ := alike_step r ev
  refine Added.grows ?_ halike.grows fun i x hx _ => .inl ((halike.home i).symm.trans hx)
  cases ev with
  | enter | leave | declare | this => exact h
  | refer id access exported =>
    obtain ⟨crossed, heq⟩ := refer_eq r id access
    have hlocate := h.locate hr.resolved hr.chain id.name
    obtain ⟨hresolved, hgrows₀, hlocated⟩ := locate_spec hr.resolved id.name hr.chain
    obtain ⟨_, hsettled⟩ := settle_spec hresolved (hgrows₀.chain hr.chain) hlocated access crossed
    rw [searched, heq]
    exact hlocate.grows hsettled fun i x hx _ => .inl
      (((settle_keeps r id access crossed _ _).1 i).symm.trans hx)

theorem Ready.added_run (hr : r.Ready events) (h : Added n r.tree) :
    Added n (events.foldl Referring.step r).tree := by
  induction events generalizing r with
  | nil => exact h
  | cons ev rest ih => exact ih hr.step.1 (h.step hr.inv)

/-! ## What references are bound to -/

theorem located_step (hr : r.Inv) {e : ScopeEvent} {a : Site} (ha : e.site? r.spot = some a)
    (hrefer : a.declares = none) {i : Nat} (hi : r.emits e = [i]) :
    (r.step e).tree.Located a.id.name a.path i := by
  cases e with
  | refer id access exported =>
    cases ha
    obtain ⟨_, _, hlocated, _⟩ := refer_spec hr id access
    cases List.singleton_inj.mp hi
    exact hlocated.mono (alike_step r (.refer id access exported)).1.grows
  | declare =>
    cases ha
    cases hrefer
  | enter | leave | this => cases ha

theorem Ready.located_run (hr : r.Ready events) (hlabel : r.Labelled events) :
    ∀ a ∈ sites r.spot events, a.declares = none →
      ∃ i, a.id.symbol = some i
        ∧ (events.foldl Referring.step r).tree.Located a.id.name a.path i := by
  induction events generalizing r with
  | nil => simp [sites]
  | cons e rest ih =>
    have hr₁ := hr.step.1
    intro a ha hrefer
    rcases List.mem_append.mp ha with ha | ha
    · have hsite : e.site? r.spot = some a := by simpa using ha
      obtain ⟨i, hi, hemits⟩ := hlabel.1 a.id (by
        rw [← id_site?, hsite]
        rfl)
      refine ⟨i, hi, ?_⟩
      exact (located_step hr.inv hsite hrefer hemits).mono hr₁.run.2
    · rw [← spot_step] at ha
      exact ih hr₁ hlabel.2 a ha hrefer

end Referring

end Laconic
