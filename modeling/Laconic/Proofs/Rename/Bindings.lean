import Laconic.Proofs.Grammar.Jumps
import Laconic.Proofs.Rename.Refind
import Laconic.Proofs.Tree.Keeping
import Mathlib

/-!
# Renaming and bindings

A program whose variables have new names is resolved again.  It may fail to be:
new names take account of the symbols that a scope refers to and not of those that
are only declared there.  So a variable that is hoisted past a block may get the
name of a symbol of that block, and a reference may come to the name of a function
expression that was hidden before, or to the arguments of a function.

These are the only cases.  `rename_keeps_bindings_iff` says which programs keep their
bindings, by the places of their names and the new names.
-/

namespace Laconic

open ScopeTree Declaring Naming Referring

/-! ## Bindings -/

namespace Program

variable {p : Program} {symbols : List Nat}

/-- The symbol that an identifier of a program is bound to. -/
def symbolAt (p : Program) (n : Nat) : Option Nat := p.idents[n]?.bind (·.symbol)

/-- Two programs have as many identifiers, and any two identifiers are bound to one
symbol in one of them just if they are in the other one. -/
def SameBindings (p q : Program) : Prop :=
  p.idents.length = q.idents.length
    ∧ ∀ m < p.idents.length, ∀ n < p.idents.length,
      (p.symbolAt m = p.symbolAt n ↔ q.symbolAt m = q.symbolAt n)

/-- The places of the names of a program. -/
def sites (ie8 : Bool) (p : Program) : List Site :=
  ScopeEvent.sites ⟨[root], 1⟩ (p.innerEvents ie8)

theorem symbolAt_eq (h : p.idents.map (·.symbol) = symbols.map some) (n : Nat) :
    p.symbolAt n = symbols[n]? := by
  have hn := congrArg (·[n]?.bind id) h
  simp only [List.getElem?_map, Option.bind_map] at hn
  exact hn.trans (Option.bind_fun_some _)

theorem sameBindings_iff {q : Program} {symbols' : List Nat}
    (hp : p.idents.map (·.symbol) = symbols.map some)
    (hq : q.idents.map (·.symbol) = symbols'.map some)
    (hlength : symbols'.length = symbols.length) :
    p.SameBindings q ↔ ¬ Referring.Differ symbols symbols' := by
  have hplength : p.idents.length = symbols.length := by simpa using congrArg List.length hp
  have hqlength : q.idents.length = symbols'.length := by simpa using congrArg List.length hq
  unfold SameBindings
  simp only [symbolAt_eq hp, symbolAt_eq hq, hplength, hqlength, hlength, true_and]
  constructor
  · rintro hsame ⟨m, n, i, j, i', j', hm, hn, hm', hn', hdiffer⟩
    obtain ⟨hmlt, _⟩ := List.getElem?_eq_some_iff.mp hm
    obtain ⟨hnlt, _⟩ := List.getElem?_eq_some_iff.mp hn
    have hiff := hsame m hmlt n hnlt
    rw [hm, hn, hm', hn', Option.some.injEq, Option.some.injEq] at hiff
    exact hdiffer hiff
  · intro hdiffer m hm n hn
    by_contra hnot
    refine hdiffer ⟨m, n, symbols[m], symbols[n], symbols'[m], symbols'[n], ?_, ?_, ?_, ?_, ?_⟩
    · exact List.getElem?_eq_getElem hm
    · exact List.getElem?_eq_getElem hn
    · exact List.getElem?_eq_getElem _
    · exact List.getElem?_eq_getElem _
    · intro hiff
      refine hnot ?_
      rw [List.getElem?_eq_getElem hm, List.getElem?_eq_getElem hn,
        List.getElem?_eq_getElem (hlength ▸ hm), List.getElem?_eq_getElem (hlength ▸ hn),
        Option.some.injEq, Option.some.injEq]
      exact hiff

/-- The identifiers of a program without names of methods get all symbols that there are, in
order. -/
theorem map_symbol_bindIdents (hmethods : p.methodsUnnamed = true) (ie8 : Bool)
    (hlength : symbols.length = (ScopeEvent.idents (p.innerEvents ie8)).length) :
    (p.bindIdents symbols).idents.map (·.symbol) = symbols.map some := by
  have hbound := methodsUnnamed_mapIdentsM bindNext hmethods symbols
  rw [← met_of_methodsUnnamed (p := p.bindIdents symbols) hbound ie8]
  refine Eq.trans ?_ (Ident.map_symbol_bindAll hlength.symm)
  exact congrArg _ (p.renamed_bindIdents symbols ie8).events.idents_eq

theorem twin_declaring (ν : Nat → String) (p : Program) :
    Declaring.Twin ν [] p.declaring p.declaring where
  tree := ⟨fun _ => rfl, fun _ => rfl⟩
  stack := rfl
  symbols := rfl
  holds a ha := by cases ha
  sited i x hx := by cases hx
  kinds a ha := by cases ha
  hoisted id name := by
    have hhoisted : p.declaring.hoisted = #[[]] := rfl
    rw [hhoisted]
    cases id <;> simp

theorem isVarScope_root (p : Program) : p.declaring.tree.isVarScope root = true := by
  have hscope : p.declaring.tree.isVarScope root
      = (if p.kind == .module then ScopeKind.module else .global).isVarScope := rfl
  rw [hscope]
  split <;> rfl

end Program

/-! ## New names -/

namespace Naming

/-- The name of a symbol after renaming. -/
def finalName (o : RenameOptions) (p : Program) (t : ScopeTree) (i : Nat) : String :=
  (nameOf? (namedTree o p t) i).getD ""

section Final

variable {o : RenameOptions} {p : Program} {t : ScopeTree} {i : Nat} {x : Home}

theorem nameOf?_eq_finalName (h : t.Resolved) (hx : t.home? i = some x) :
    nameOf? (namedTree o p t) i = some (finalName o p t i) := by
  obtain ⟨s, hs, _⟩ := Option.map_eq_some_iff.mp ((home?_namedTree (o := o) (p := p) h i).trans hx)
  simp [finalName, nameOf?, hs]

theorem symbol_renamedIdent (t : ScopeTree) (id : Ident) :
    (renamedIdent t id).symbol = id.symbol := by
  unfold renamedIdent
  split <;> rfl

theorem name_renamedIdent (h : t.Resolved) {id : Ident} (hid : id.symbol = some i)
    (hx : t.home? i = some x) (hname : x.name = id.name) :
    (renamedIdent (namedTree o p t) id).name = finalName o p t i := by
  obtain ⟨s, hs, hhome⟩ :=
    Option.map_eq_some_iff.mp ((home?_namedTree (o := o) (p := p) h i).trans hx)
  have hold : s.name = id.name := by
    rw [← hname, ← hhome]
    rfl
  rw [finalName, nameOf?, hs]
  unfold renamedIdent symbolOf?
  rw [hid, Option.bind_some, hs]
  cases hnew : s.newName with
  | none => simp [hnew, Symbol.outputName, hold]
  | some new => simp [hnew, Symbol.outputName]

/-- Which symbols keep their names: those that no scope finds, and arguments. -/
theorem finalName_eq (h : t.Resolved) (hx : t.home? i = some x)
    (hkeeps : (∀ id, ¬ t.Owns id i) ∨ x.kind = .arguments) : finalName o p t i = x.name := by
  have hnone : newName? (namedTree o p t) i = none := by
    refine newName?_namedTree_eq_none h ?_
    rintro id ⟨hown, helig⟩
    rcases hkeeps with hnot | hkind
    · exact hnot id hown
    · obtain ⟨s, hs, rfl⟩ := Option.map_eq_some_iff.mp hx
      have hkind : s.kind = .arguments := hkind
      simp [isEligible_eligibleIn, hs, RenameOptions.renames, hkind] at helig
  have hname := nameOf?_of_none ((home?_namedTree (o := o) (p := p) h i).trans hx) hnone
  rw [finalName, hname]
  rfl

end Final

end Naming

/-- In the tree in which all names were declared, the symbols of a scope have different
new names. -/
theorem ScopeTree.Settled.apart {ν : Nat → String} {u t : ScopeTree} (h : Settled ν u t) :
    u.Apart ν where
  own := by
    intro i j x y hx hy hscope _ _ hxkind hykind hν
    by_contra hij
    have hi := h.grows.declared _ _ _ (h.shown i x hx hxkind)
    have hj := h.grows.declared _ _ _ (h.shown j y hy hykind)
    rw [← hscope] at hj
    exact h.own ⟨_, hi⟩ (h.grows.home i x hx) (h.declared i x hx).2 (.inl ⟨_, hj⟩) hij hν
  first := fun hx hy hkind hscope _ => h.first _ _ _ _ hx hy hkind hscope.symm

theorem Declaring.added_referring (d : Declaring) :
    Referring.Added d.tree.symbols.size d.referring.tree := by
  intro i x hle hx
  have hlt : i < d.tree.symbols.size := lt_size_of_home? hx
  omega

section Rename

variable {o : RenameOptions} {p q : Program} {t : ScopeTree}

theorem settled_of_resolve (hfunctions : o.keepFunctionNames = false)
    (hclasses : o.keepClassNames = false) (hexports : p.exportsOutermost o.ie8 = true)
    (h : resolve o.ie8 p = .ok (q, t)) {d : Declaring}
    (hrun : (q.innerEvents o.ie8).foldlM (step q.fileName) q.declaring = .ok d)
    (ht : t = ((q.innerEvents o.ie8).foldl step d.referring).tree.pin) :
    Settled (finalName o q t) d.tree t := by
  obtain ⟨hresolved, hpins⟩ := resolved_of_resolve h
  have hexported := exports_of_resolve h hexports
  have hinv := inv_of_run hrun
  have hready := ready_referring hrun
  obtain ⟨hfinal, hgrows⟩ := hready.run
  have halike := (pin_spec hfinal.resolved.hangs).1.toAlike
  rw [← ht] at halike
  have hadded := hready.added_run d.added_referring
  have hshown : d.Shown := by
    refine (course_of_run hrun).shown ?_
    intro i x hx
    cases hx
  exact {
    resolved := hresolved
    grows := hgrows.trans halike.grows
    declared := by
      intro i x hx
      obtain ⟨s, hs, rfl⟩ := Option.map_eq_some_iff.mp hx
      obtain ⟨_, hund, _, hkind⟩ := hinv.symbol i s hs
      exact ⟨hund, hkind⟩
    shown := hshown
    first := by
      intro i j x y hx hy hkind hscope
      obtain ⟨s, hs, rfl⟩ := Option.map_eq_some_iff.mp hx
      obtain ⟨s', hs', rfl⟩ := Option.map_eq_some_iff.mp hy
      exact hinv.first i j s s' hs hs' hkind hscope
    added := by
      intro i x hi hx hund
      exact (hadded i x hi ((halike.home i).symm.trans hx) hund).grows halike.grows
    own := by
      intro id i j x hown hx hkind hsees hij hν
      obtain ⟨y, hy⟩ := hresolved.home?_of_sees hsees
      refine own_ne_visible (p := q) hresolved hpins hexported hfunctions hclasses hown hx
        hkind hsees hij ?_
      rw [nameOf?_eq_finalName hresolved hx, nameOf?_eq_finalName hresolved hy, hν]
    keeps := fun i x hx hkeeps => finalName_eq hresolved hx hkeeps }

section Runs

variable {ie8 : Bool} {d : Declaring}
  (hrun : (q.innerEvents ie8).foldlM (step q.fileName) q.declaring = .ok d)
  (ht : t = ((q.innerEvents ie8).foldl step d.referring).tree.pin)
  (hlabel : d.referring.Labelled (q.innerEvents ie8))

include hrun

theorem grows_of_run (ht : t = ((q.innerEvents ie8).foldl step d.referring).tree.pin) :
    ((q.innerEvents ie8).foldl step d.referring).tree.Grows t := by
  obtain ⟨hfinal, _⟩ := (ready_referring hrun).run
  have halike := (pin_spec hfinal.resolved.hangs).1.toAlike
  rw [← ht] at halike
  exact halike.grows

theorem labelled_of_run (hdeclares : ScopeEvent.Declares (q.innerEvents ie8) d.symbols.toList) :
    q.declaring.Labelled q.fileName (q.innerEvents ie8) :=
  labelled_of_declares hrun (List.nil_append _).symm hdeclares

/-- The places of a resolved program are places of the tree in which all names were
declared. -/
theorem holds_of_run (hdeclares : ScopeEvent.Declares (q.innerEvents ie8) d.symbols.toList) :
    ∀ a ∈ q.sites ie8, d.tree.Holds a :=
  (course_of_run hrun).holds (labelled_of_run hrun hdeclares)

/-- Every identifier of a resolved program has the name of its symbol. -/
theorem named_of_run (ht : t = ((q.innerEvents ie8).foldl step d.referring).tree.pin)
    (hlabel : d.referring.Labelled (q.innerEvents ie8))
    (hdeclares : ScopeEvent.Declares (q.innerEvents ie8) d.symbols.toList) :
    ∀ a ∈ q.sites ie8, ∀ i, a.id.symbol = some i → ∃ x, t.home? i = some x
      ∧ x.name = a.id.name := by
  have hready := ready_referring hrun
  obtain ⟨hinv, hgrows⟩ := hready.run
  have hend := grows_of_run hrun ht
  intro a ha i hi
  cases hkind : a.declares with
  | none =>
    obtain ⟨i', hi', hlocated⟩ := hready.located_run hlabel a ha hkind
    cases Option.mem_unique hi hi'
    obtain ⟨x, hx, hname⟩ := hlocated.home? hinv.resolved
    exact ⟨x, hend.home i x hx, hname⟩
  | some kind =>
    obtain ⟨x, hx, hname⟩ := (holds_of_run hrun hdeclares a ha).2 i kind ⟨hi, hkind⟩
    exact ⟨x, (hgrows.trans hend).home i x hx, hname⟩

end Runs

/-- A resolved program keeps its bindings when its variables are renamed just if, under
the new names, no declaration that is hoisted past a block clashes with one of the
block, and no reference is caught on the way to its symbol. -/
theorem keeps_bindings_iff (hfunctions : o.keepFunctionNames = false)
    (hclasses : o.keepClassNames = false) (hexports : p.exportsOutermost o.ie8 = true)
    (hmethods : p.methodsUnnamed = true) (h : resolve o.ie8 p = .ok (q, t)) :
    (∃ q' t', resolve o.ie8 (renameVariables o q t []).1 = .ok (q', t') ∧ q.SameBindings q')
      ↔ ((q.sites o.ie8).Pairwise fun a b => ¬ t.Clashes (finalName o q t) a b)
        ∧ ∀ a ∈ q.sites o.ie8, ¬ t.Caught (finalName o q t) a := by
  obtain ⟨d, hrun, ht, hlabel, hdeclares, _⟩ := runs_of_resolve h
  have hmethods' := Program.methodsUnnamed_of_resolve hmethods h
  have hidents : q.idents.map (·.symbol)
      = (d.referring.emitted (q.innerEvents o.ie8)).map some := by
    rw [← hlabel.map_symbol, ← Program.met_of_methodsUnnamed hmethods' o.ie8]
  have hsettled := settled_of_resolve hfunctions hclasses hexports h hrun ht
  -- the renamed program has the same events with new names
  generalize hg : renamedIdent (namedTree o q t) = g
  have hq₂ : (renameVariables o q t []).1 = q.mapIdents g := by
    rw [← hg]
    rfl
  obtain ⟨hdeclaring, hfile⟩ := Program.declaring_eq (q.renamed_mapIdents g o.ie8)
  have hevents := q.innerEvents_mapIdents g o.ie8
  have hsymbol : ∀ id, (g id).symbol = id.symbol := by
    intro id
    rw [← hg]
    exact symbol_renamedIdent _ id
  have hnames : ∀ a ∈ q.sites o.ie8, ∀ i, a.id.symbol = some i →
      (g a.id).name = finalName o q t i := by
    intro a ha i hi
    obtain ⟨x, hx, hname⟩ := named_of_run hrun ht hlabel hdeclares a ha i hi
    rw [← hg]
    exact name_renamedIdent hsettled.resolved hi hx hname
  generalize finalName o q t = ν at hsettled hnames ⊢
  have hclashes : ((q.sites o.ie8).Pairwise fun a b => ¬ t.Clashes ν a b)
      ↔ (q.sites o.ie8).Pairwise fun a b => ¬ d.tree.Clashes ν a b := by
    have hholds := holds_of_run hrun hdeclares
    refine List.Pairwise.iff_of_mem fun ha hb => not_congr ?_
    exact clashes_iff (hholds _ ha) (hholds _ hb) (.of_eq hsettled.grows.frame)
      fun i x hx => ⟨x.kind, hsettled.grows.home i x hx, rfl⟩
  rw [hclashes, hq₂]
  have hstart : Declaring.Twin ν [] q.declaring q.declaring := q.twin_declaring ν
  have htwins := hstart.run (course_of_run hrun) q.inv_declaring q.isVarScope_root hnames
    (labelled_of_run hrun hdeclares) hsettled.apart .nil
  rcases htwins with ⟨e, hrun', htwin, heinv, hpairwise⟩ | ⟨⟨err, herr⟩, hnot⟩
  · have hrun₂ : ((q.mapIdents g).innerEvents o.ie8).foldlM
        (step (q.mapIdents g).fileName) (q.mapIdents g).declaring = .ok e := by
      rw [hdeclaring, hfile, hevents]
      exact hrun'
    have hstart₂ : Referring.Twin ν d.referring e.referring := ⟨htwin.tree, rfl, rfl, rfl⟩
    have hknown : d.referring.Known (q.innerEvents o.ie8) := by
      intro j x hx
      have hmem := (inv_of_run hrun).declared j (lt_size_of_home? hx)
      rw [hdeclares.symbols]
      exact .inr (Array.mem_toList_iff.mpr hmem)
    have hruns := hstart₂.run hsettled (ready_referring hrun)
      (ready_referring hrun₂).inv (.refl _) (grows_of_run hrun ht) hsymbol hnames hlabel hknown
    have hlength := Referring.Twin.length_emitted_eq d.referring e.referring hsymbol
      (q.innerEvents o.ie8)
    -- the declared names are bound to the symbols that they were bound to
    have hbound : ScopeEvent.labelDeclared ((q.mapIdents g).innerEvents o.ie8) e.symbols.toList
        = (q.innerEvents o.ie8).map (ScopeEvent.withIdent g) := by
      rw [hevents, htwin.symbols]
      exact (hdeclares.map_withIdent hsymbol).labelDeclared_eq
    have hresolve := resolve_eq_of_run hrun₂
    rw [hbound] at hresolve
    dsimp only at hresolve
    have hsame : ∀ q' t', resolve o.ie8 (q.mapIdents g) = .ok (q', t') →
        (q.SameBindings q' ↔ ¬ Referring.Differ (d.referring.emitted (q.innerEvents o.ie8))
          (e.referring.emitted ((q.innerEvents o.ie8).map (ScopeEvent.withIdent g)))) := by
      intro q' t' hq'
      cases hresolve.symm.trans hq'
      refine Program.sameBindings_iff hidents ?_ hlength
      rw [Referring.symbols_run]
      refine Program.map_symbol_bindIdents (Program.methodsUnnamed_mapIdents g hmethods') o.ie8 ?_
      rw [hevents]
      exact Referring.length_emitted (hdeclares.map_withIdent hsymbol)
    rcases hruns with ⟨hfree, hemitted⟩ | ⟨⟨a, ha, hcaught⟩, hdiffer⟩
    · refine ⟨fun _ => ⟨hpairwise, hfree⟩, fun _ => ⟨_, _, hresolve, ?_⟩⟩
      rw [hsame _ _ hresolve, hemitted]
      rintro ⟨m, n, i, j, i', j', hm, hn, hm', hn', hnot⟩
      cases Option.mem_unique hm hm'
      cases Option.mem_unique hn hn'
      exact hnot Iff.rfl
    · constructor
      · rintro ⟨q', t', hq', hbindings⟩
        exact absurd hdiffer ((hsame q' t' hq').mp hbindings)
      · rintro ⟨_, hfree⟩
        exact absurd hcaught (hfree a ha)
  · constructor
    · rintro ⟨q', t', hresolve, _⟩
      rw [resolve_eq, hdeclaring, hfile, hevents, herr] at hresolve
      cases hresolve
    · rintro ⟨hpairwise, _⟩
      exact absurd hpairwise hnot

end Rename

/-- Which resolved programs keep their bindings when their variables are renamed: those
in which, under the new names, no declaration that is hoisted past a block clashes with
one of the block, and no reference is caught by a hidden symbol or the arguments of a
function on the way to its symbol. -/
theorem rename_keeps_bindings_iff (toplevel : Bool) {p q : Program} {t : ScopeTree}
    (hexports : p.exportsOutermost false = true ∨ p.Parsed)
    (hmethods : p.methodsUnnamed = true ∨ p.Parsed) (h : resolve false p = .ok (q, t)) :
    (∃ q' t', resolve false (renameVariables { toplevel } q t []).1 = .ok (q', t')
        ∧ q.SameBindings q')
      ↔ ((q.sites false).Pairwise fun a b => ¬ t.Clashes (finalName { toplevel } q t) a b)
        ∧ ∀ a ∈ q.sites false, ¬ t.Caught (finalName { toplevel } q t) a := by
  have hexports := hexports.elim id fun hparsed => hparsed.exportsOutermost false
  have hmethods := hmethods.elim id Program.Parsed.methodsUnnamed
  exact keeps_bindings_iff (o := { toplevel }) rfl rfl hexports hmethods h

/-- A function without arguments of its own that has another one in it, `a => b => a + b`. -/
def nestedArrows : Program :=
  let name (text : String) : Ident := ⟨.nowhere, text, none⟩
  let arrow (param : String) (body : Expr) : Expr :=
    .arrow ⟨.nowhere, false, [.ident (name param)], .expr body⟩
  let sum : Expr := .binary .nowhere .add (.ident (name "a")) (.ident (name "b"))
  ⟨.nowhere, .script, [.expr .nowhere (arrow "a" (arrow "b" sum))], [], none, []⟩

theorem nestedArrows_keep_bindings :
    ∃ q t, resolve false nestedArrows = .ok (q, t)
      ∧ ∃ q' t', resolve false (renameVariables {} q t []).1 = .ok (q', t')
        ∧ q.SameBindings q' := by
  obtain ⟨q, t, h, hsites, hsize, hfirst, hsecond, hfound, hfound', hargs⟩ :
      ∃ q t, resolve false nestedArrows = .ok (q, t)
      ∧ (q.sites false).map (fun a => (a.path, a.declares))
        = [([1, 0], some .param), ([2, 1, 0], some .param), ([2, 1, 0], none), ([2, 1, 0], none)]
      ∧ t.symbols.size = 2 ∧ t.home? 0 = some ⟨"a", 1, .param, false⟩
      ∧ t.home? 1 = some ⟨"b", 2, .param, false⟩ ∧ t.declared? "a" 1 = some 0
      ∧ t.declared? "b" 2 = some 1 ∧ [0, 1, 2].all (fun id => !t.hasArguments id) = true :=
    ⟨_, _, rfl, rfl, rfl, rfl, rfl, rfl, rfl, rfl⟩
  have hsite : ∀ a ∈ q.sites false, (∀ kind, a.declares = some kind → kind = .param)
      ∧ ∀ id ∈ a.path, id ∈ [0, 1, 2] := by
    intro a ha
    have hmem : (a.path, a.declares) ∈ (q.sites false).map fun a => (a.path, a.declares) :=
      List.mem_map_of_mem ha
    rw [hsites] at hmem
    simp only [List.mem_cons, Prod.mk.injEq, List.not_mem_nil, or_false] at hmem
    rcases hmem with ⟨hpath, hkind⟩ | ⟨hpath, hkind⟩ | ⟨hpath, hkind⟩ | ⟨hpath, hkind⟩ <;>
      rw [hpath, hkind] <;> simp
  have hmethods : nestedArrows.methodsUnnamed = true := by decide
  refine ⟨q, t, h, (rename_keeps_bindings_iff false (.inl (by decide)) (.inl hmethods) h).mpr
    ⟨?_, ?_⟩⟩
  · refine List.Pairwise.imp_of_mem ?_ (List.pairwise_of_forall fun _ _ => trivial)
    rintro a b ha hb _ ⟨i, j, kind, kind', x, y, ⟨_, hkind⟩, ⟨_, hkind'⟩, _, _, _, hcase⟩
    cases (hsite a ha).1 kind hkind
    cases (hsite b hb).1 kind' hkind'
    rcases hcase with ⟨hmem, _⟩ | ⟨hmem, _⟩ <;> cases hmem
  · rintro a ha ⟨_, i, x, _, _, id, hid, hcatches⟩
    have hmem : id ∈ [0, 1, 2] := by
      obtain ⟨rest, hrest⟩ := wayTo_prefix x a.path
      exact (hsite a ha).2 id (by rw [hrest]; exact List.mem_append_left _ hid)
    rcases hcatches with ⟨j, y, hy, hscope, _, hhidden, _⟩ | ⟨_, hhas⟩
    · have hlt := lt_size_of_home? hy
      rw [hsize] at hlt
      obtain rfl | rfl : j = 0 ∨ j = 1 := by omega
      · cases Option.mem_unique hfirst hy
        exact hhidden (hscope ▸ hfound)
      · cases Option.mem_unique hsecond hy
        exact hhidden (hscope ▸ hfound')
    · have hnot := List.all_eq_true.mp hargs id hmem
      rw [hhas] at hnot
      cases hnot

/-- A function with a variable that is hoisted past a block,
`function f(){{let x;{var y}}}`. -/
def hoistedPast : Program :=
  let name (text : String) : Ident := ⟨.nowhere, text, none⟩
  let declare (kind : VarKind) (text : String) : Stmt :=
    .varDecl ⟨.nowhere, kind, [⟨.nowhere, .ident (name text), none⟩]⟩
  let block (body : List Stmt) : Stmt := .block ⟨.nowhere, body⟩
  let body := [block [declare .let "x", block [declare .var "y"]]]
  ⟨.nowhere, .script,
    [.function ⟨.nowhere, some (name "f"), false, false, [], ⟨.nowhere, body⟩⟩], [], none, []⟩

def hoistedPastTree : ScopeTree :=
  let scope (kind : ScopeKind) (parent : Option Nat) (children : List Nat) (names : NameTable) :
      Scope :=
    ⟨kind, parent, children, names, [], false, false, false, false, false, false, .nowhere⟩
  let symbol (name : String) (scope : Nat) (kind : BindingKind) : Symbol :=
    ⟨name, scope, kind, [], [], 0, false, false, false, none, none⟩
  { scopes := #[scope .global none [1] [("f", 0)], scope .function (some 0) [2] [("y", 2)],
      scope .block (some 1) [3] [("x", 1)], scope .block (some 2) [] []]
    symbols := #[symbol "f" 0 .function, symbol "x" 2 .let, symbol "y" 1 .var] }

/-- Both variables get the first name there is: neither scope refers to the other. -/
theorem finalName_hoistedPast (toplevel : Bool) (p : Program) :
    finalName { toplevel } p hoistedPastTree 1 = finalName { toplevel } p hoistedPastTree 2 := by
  unfold finalName nameOf? namedTree renameVariables
  dsimp only
  -- which name is the first one does not matter
  generalize alphabetFor _ _ = a
  delta renameScope renameOwn
  generalize a.fresh = fresh
  cases toplevel <;> cbv

/-- A program that does not keep its bindings. -/
theorem hoistedPast_loses_bindings :
    ∃ q t, resolve false hoistedPast = .ok (q, t)
      ∧ ∀ toplevel, ¬ ∃ q' t', resolve false (renameVariables { toplevel } q t []).1 = .ok (q', t')
        ∧ q.SameBindings q' := by
  have h : resolve false hoistedPast
      = .ok (hoistedPast.bindIdents [0, 1, 2], hoistedPastTree) := by
    have hrun : (hoistedPast.innerEvents false).foldlM (step hoistedPast.fileName)
        hoistedPast.declaring
          = .ok ⟨hoistedPastTree, [0], #[[], [], ["y"], ["y"]], #[0, 1, 2]⟩ := rfl
    rw [resolve_eq_of_run hrun]
    rfl
  obtain ⟨first, second, third, hsites, hsecond, hthird⟩ : ∃ first second third,
      (hoistedPast.bindIdents [0, 1, 2]).sites false = [first, second, third]
      ∧ second.Declares 1 .let ∧ third.path = [3, 2, 1, 0] ∧ third.Declares 2 .var :=
    ⟨_, _, _, rfl, ⟨rfl, rfl⟩, rfl, ⟨rfl, rfl⟩⟩
  have hexports : hoistedPast.exportsOutermost false = true := by decide
  have hmethods : hoistedPast.methodsUnnamed = true := by decide
  refine ⟨_, _, h, fun toplevel hkeeps => ?_⟩
  obtain ⟨hpairwise, _⟩ :=
    (keeps_bindings_iff (o := { toplevel }) rfl rfl hexports hmethods h).mp hkeeps
  rw [hsites] at hpairwise
  have hclash := List.rel_of_pairwise_cons (List.Pairwise.of_cons hpairwise)
    (List.mem_singleton.mpr rfl)
  refine hclash ⟨1, 2, .let, .var, ⟨"x", 2, .let, false⟩, ⟨"y", 1, .var, false⟩, hsecond, hthird.2,
    rfl, rfl, finalName_hoistedPast toplevel _, .inl ⟨?_, rfl⟩⟩
  rw [hthird.1]
  decide

end Laconic
