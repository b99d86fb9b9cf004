import Laconic.Proofs.Scope.Events
import Laconic.Proofs.Scope.Label

/-!
# Resolved programs

Both runs over the events of a program, put together.  The first event begins the
outermost scope and the last one ends it; what is between them fits, so all that
the runs know at each moment holds of the tree in the end.

A scope whose names must stay pins all scopes around it, since scopes are visited
from the last one on (`pin_spec`).
-/

namespace Laconic

variable {ie8 : Bool} {p q : Program} {t : ScopeTree}

/-! ## Pinned scopes -/

namespace ScopeTree

/-- Whether the names of a scope are pinned. -/
def pins (t : ScopeTree) (id : Nat) : Bool := t.scopes[id]?.any (·.pinned)

/-- Whether `eval` or `with` is used in a scope. -/
def evaluates (t : ScopeTree) (id : Nat) : Bool :=
  t.scopes[id]?.any fun s => s.usesEval || s.usesWith

/-- Marks a scope as one whose names must stay. -/
def setPinned (t : ScopeTree) (id : Nat) : ScopeTree :=
  t.modifyScope id fun s => { s with pinned := true }

def pinOne (t : ScopeTree) (id : Nat) : ScopeTree :=
  match t.scopes[id]? with
  | some s =>
    if s.pinned || s.usesEval || s.usesWith then
      match s.parent with
      | some parent => (t.setPinned id).setPinned parent
      | none => t.setPinned id
    else t
  | none => t

theorem pins_setPinned (t : ScopeTree) (id j : Nat) :
    (t.setPinned id).pins j = (t.pins j || (id == j && decide (j < t.scopes.size))) := by
  unfold pins setPinned
  rw [getElem?_scopes_modifyScope]
  by_cases hid : id = j
  · subst hid
    cases hs : t.scopes[id]? with
    | none =>
      have hnot : ¬ id < t.scopes.size := by simpa using hs
      simp [hnot]
    | some s =>
      have hlt := (Array.getElem?_eq_some_iff.mp hs).1
      simp [hlt]
  · simp [hid]

/-- Trees that differ in the pinned scopes only. -/
structure PinsOnly (t u : ScopeTree) : Prop extends t.Alike u where
  symbols : u.symbols = t.symbols
  size : u.scopes.size = t.scopes.size
  evaluates : ∀ id, u.evaluates id = t.evaluates id

theorem PinsOnly.trans {u v : ScopeTree} (h : t.PinsOnly u) (h' : u.PinsOnly v) : t.PinsOnly v :=
  ⟨h.toAlike.trans h'.toAlike, h'.symbols.trans h.symbols, h'.size.trans h.size,
    fun id => (h'.evaluates id).trans (h.evaluates id)⟩

theorem pinsOnly_setPinned (t : ScopeTree) (id : Nat) : t.PinsOnly (t.setPinned id) := by
  refine ⟨alike_modifyScope t id _ (fun _ => rfl) (fun _ => rfl) (fun _ => rfl), rfl,
    size_scopes_modifyScope _ _ _, fun j => ?_⟩
  unfold evaluates setPinned
  rw [getElem?_scopes_modifyScope]
  split
  · rw [Option.any_map]
  · rfl

/-- A scope is pinned that was so before, or that is the one to look at or the one around that,
if the one to look at was pinned or uses `eval` or `with`. -/
theorem pinOne_spec (t : ScopeTree) (id : Nat) : t.PinsOnly (t.pinOne id) ∧
    ∀ j, (t.pinOne id).pins j = true ↔ t.pins j = true ∨ j < t.scopes.size ∧
      (t.pins id = true ∨ t.evaluates id = true) ∧
      (j = id ∨ t.parent? id = some j) := by
  have hsame : t.PinsOnly t := ⟨.refl t, rfl, rfl, fun _ => rfl⟩
  unfold pinOne
  cases hs : t.scopes[id]? with
  | none => exact ⟨hsame, by simp [pins, evaluates, hs]⟩
  | some s =>
    have hmarked : (t.pins id = true ∨ t.evaluates id = true)
        ↔ (s.pinned || s.usesEval || s.usesWith) = true := by simp [pins, evaluates, hs, or_assoc]
    have hparent? : t.parent? id = s.parent := by simp [parent?, frame?, hs, Scope.frame]
    have hone := pinsOnly_setPinned t id
    simp only [hmarked, hparent?]
    split
    · cases hparent : s.parent with
      | none =>
        refine ⟨hone, fun j => ?_⟩
        rw [pins_setPinned]
        grind
      | some parent =>
        refine ⟨hone.trans (pinsOnly_setPinned _ parent), fun j => ?_⟩
        rw [pins_setPinned, hone.size, pins_setPinned]
        grind
    · exact ⟨hsame, fun j => by grind⟩

/-- A scope is pinned or uses `eval` or `with`, or one inside it does. -/
def MarkedIn (t : ScopeTree) (id : Nat) : Prop :=
  ∃ j, (t.pins j = true ∨ t.evaluates j = true) ∧ id ∈ t.ancestors j

section MarkedIn

variable {t : ScopeTree} (hhangs : t.Hangs) {id : Nat}

include hhangs

theorem chain_of_marked (h : t.pins id = true ∨ t.evaluates id = true) :
    ∃ rest, t.ancestors id = id :: rest ∧ t.Chain (id :: rest) := by
  refine exists_chain hhangs ?_
  have hsome : t.scopes[id]?.isSome := by
    cases hs : t.scopes[id]? with
    | none => simp [pins, evaluates, hs] at h
    | some s => rfl
  simpa using hsome

theorem MarkedIn.lt_size (h : t.MarkedIn id) : id < t.scopes.size := by
  obtain ⟨j, hj, hid⟩ := h
  obtain ⟨rest, heq, hchain⟩ := chain_of_marked hhangs hj
  exact hchain.lt_size id (heq ▸ hid)

theorem markedIn_of_marked (h : t.pins id = true ∨ t.evaluates id = true) : t.MarkedIn id := by
  obtain ⟨rest, heq, -⟩ := chain_of_marked hhangs h
  exact ⟨id, h, heq ▸ List.mem_cons_self⟩

theorem MarkedIn.parent {parent : Nat} (h : t.MarkedIn id) (hparent : t.parent? id = some parent) :
    t.MarkedIn parent := by
  obtain ⟨j, hj, hid⟩ := h
  obtain ⟨rest, heq, hchain⟩ := chain_of_marked hhangs hj
  exact ⟨j, hj, heq ▸ hchain.mem_of_parent (heq ▸ hid) hparent⟩

theorem MarkedIn.cases (h : t.MarkedIn id) : (t.pins id = true ∨ t.evaluates id = true) ∨
    ∃ child, id < child ∧ t.MarkedIn child ∧ t.parent? child = some id := by
  obtain ⟨j, hj, hid⟩ := h
  obtain ⟨rest, heq, hchain⟩ := chain_of_marked hhangs hj
  rw [heq] at hid
  rcases List.mem_cons.mp hid with rfl | hid
  · exact .inl hj
  · obtain ⟨child, hmem, hparent⟩ := hchain.exists_child hid
    refine .inr ⟨child, ?_, ⟨j, hj, heq ▸ hmem⟩, hparent⟩
    obtain ⟨f, hf, hparent⟩ := Option.bind_eq_some_iff.mp hparent
    rcases hhangs child f hf with ⟨-, hnone⟩ | ⟨_, hlt, hsome⟩
    · rw [hnone] at hparent
      cases hparent
    · cases Option.mem_unique hsome hparent
      exact hlt

/-- Pinning changes nothing else, and a scope is pinned in the end just if it or one inside it was
so before or uses `eval` or `with`. -/
theorem pin_spec : t.PinsOnly t.pin ∧ ∀ id, t.pin.pins id = true ↔ t.MarkedIn id := by
  -- scopes are looked at from the last one on, and each of them pins the one around it
  have hgen : ∀ (n : Nat) (u : ScopeTree), t.PinsOnly u →
      (∀ id, u.pins id = true ↔ t.pins id = true ∨ n ≤ id ∧ t.MarkedIn id ∨
        ∃ child, n ≤ child ∧ t.MarkedIn child ∧ t.parent? child = some id) →
      let v := (List.range n).reverse.foldl pinOne u
      t.PinsOnly v ∧ ∀ id, v.pins id = true ↔ t.MarkedIn id := by
    intro n
    induction n with
    | zero =>
      refine fun u hu hpins => ⟨hu, fun id => ?_⟩
      have hpinned : t.pins id = true → t.MarkedIn id := fun h => markedIn_of_marked hhangs (.inl h)
      have hparent : ∀ child, t.MarkedIn child → t.parent? child = some id → t.MarkedIn id :=
        fun _ => MarkedIn.parent hhangs
      grind
    | succ n ih =>
      intro u hu hpins
      rw [List.range_succ, List.reverse_append, List.reverse_singleton, List.singleton_append,
        List.foldl_cons]
      obtain ⟨hone, hpinned⟩ := pinOne_spec u n
      have hlast : (u.pins n = true ∨ u.evaluates n = true) ↔ t.MarkedIn n := by
        rw [hpins, hu.evaluates]
        have hmarked : t.pins n = true ∨ t.evaluates n = true → t.MarkedIn n :=
          markedIn_of_marked hhangs
        have hparent : ∀ child, t.MarkedIn child → t.parent? child = some n → t.MarkedIn n :=
          fun _ => MarkedIn.parent hhangs
        have hcases := fun h : t.MarkedIn n => h.cases hhangs
        grind
      refine ih _ (hu.trans hone) fun id => ?_
      have hparent? : u.parent? n = t.parent? n := congrArg (Option.bind · _) (hu.frame n)
      have hlt := fun h : t.MarkedIn id => h.lt_size hhangs
      have hparent : t.MarkedIn n → t.parent? n = some id → t.MarkedIn id := MarkedIn.parent hhangs
      rw [hpinned, hlast, hpins, hu.size, hparent?]
      grind
  refine hgen t.scopes.size t ⟨.refl t, rfl, rfl, fun _ => rfl⟩ fun id => ?_
  have hlt : ∀ id, t.MarkedIn id → id < t.scopes.size := fun _ => MarkedIn.lt_size hhangs
  grind

end MarkedIn

/-- What is around a pinned scope is pinned. -/
def PinsOutward (t : ScopeTree) : Prop :=
  ∀ id parent, t.parent? id = some parent → t.pins id = true → t.pins parent = true

end ScopeTree

/-! ## Both runs -/

/-- The run that finds references, inside the outermost scope. -/
def Declaring.referring (d : Declaring) : Referring :=
  { tree := d.tree, stack := [ScopeTree.root], next := 1 }

section Runs

open Program

theorem scopeEvents_eq (ie8 : Bool) (p : Program) :
    p.scopeEvents ie8
      = .enter (if p.kind == .module then .module else .global) p.loc
          (p.kind == .module || ScopeEvent.usesStrict p.body)
        :: (p.innerEvents ie8 ++ [.leave]) :=
  rfl

/-- A program is resolved by two runs over its events, of which the second one knows what the
declared names are bound to. -/
theorem resolve_eq (ie8 : Bool) (p : Program) :
    resolve ie8 p
      = ((p.innerEvents ie8).foldlM (Declaring.step p.fileName) p.declaring).map fun d =>
        let p := p.bindDeclared ie8 d.symbols.toList
        let r := (p.innerEvents ie8).foldl Referring.step d.referring
        (p.bindIdents r.symbols.toList, r.tree.pin) := by
  have hfirst : (p.scopeEvents ie8).foldlM (Declaring.step p.fileName) {}
      = (p.innerEvents ie8).foldlM (Declaring.step p.fileName) p.declaring
        >>= fun d => .ok d.leave := by
    rw [scopeEvents_eq, List.foldlM_cons]
    show (p.innerEvents ie8 ++ [ScopeEvent.leave]).foldlM (Declaring.step p.fileName)
      p.declaring = _
    rw [List.foldlM_append]
    rfl
  have hsecond : ∀ (p : Program) (d : Declaring),
      (p.scopeEvents ie8).foldl Referring.step { tree := d.tree }
        = ((p.innerEvents ie8).foldl Referring.step d.referring).step .leave := by
    intro p d
    rw [scopeEvents_eq, List.foldl_cons, List.foldl_append]
    rfl
  unfold resolve
  dsimp only
  rw [hfirst]
  cases (p.innerEvents ie8).foldlM (Declaring.step p.fileName) p.declaring with
  | error e => rfl
  | ok d =>
    refine congrArg Except.ok ?_
    rw [hsecond]
    rfl

/-- The program in which the declared names are bound: the run that declares names goes over it
as over the program itself. -/
theorem declares_bindDeclared {d : Declaring}
    (hrun : (p.innerEvents ie8).foldlM (Declaring.step p.fileName) p.declaring = .ok d) :
    let q := p.bindDeclared ie8 d.symbols.toList
    (q.innerEvents ie8).foldlM (Declaring.step q.fileName) q.declaring = .ok d
      ∧ ScopeEvent.Declares (q.innerEvents ie8) d.symbols.toList := by
  intro q
  obtain ⟨hdeclaring, hfile⟩ := declaring_eq (p.bindDeclared_spec ie8 d.symbols.toList).1
  have hevents : q.innerEvents ie8 = _ := p.innerEvents_bindDeclared d.symbols.toList ie8
  obtain ⟨new, hnew, hcount⟩ := Declaring.symbols_run hrun
  constructor
  · rw [hdeclaring, hfile, hevents, ← Declaring.foldlM_unbound, ScopeEvent.unbound_labelDeclared,
      Declaring.foldlM_unbound]
    exact hrun
  · rw [hevents]
    refine .labelDeclared (hcount.symm.trans ?_)
    exact (congrArg List.length hnew).symm

section Bound

variable {d : Declaring}
  (hrun : (p.innerEvents ie8).foldlM (Declaring.step p.fileName) p.declaring = .ok d)

include hrun

theorem length_emitted_bindDeclared :
    (d.referring.emitted ((p.bindDeclared ie8 d.symbols.toList).innerEvents ie8)).length
      = (ScopeEvent.idents (p.innerEvents ie8)).length := by
  rw [Referring.length_emitted (declares_bindDeclared hrun).2]
  obtain ⟨hrenamed, _⟩ := p.bindDeclared_spec ie8 d.symbols.toList
  exact (congrArg List.length hrenamed.events.idents_eq).trans (Ident.length_bindSome _ _)

/-- What a program is resolved to, by the events of the program itself. -/
theorem resolve_eq_of_run :
    resolve ie8 p =
      let r := (ScopeEvent.labelDeclared (p.innerEvents ie8) d.symbols.toList).foldl
        Referring.step d.referring
      .ok (p.bindIdents r.symbols.toList, r.tree.pin) := by
  have hlength := length_emitted_bindDeclared hrun
  obtain ⟨_, hagain⟩ := p.bindDeclared_spec ie8 d.symbols.toList
  rw [resolve_eq, hrun, ← innerEvents_bindDeclared]
  refine congrArg Except.ok (Prod.ext (hagain _ ?_) rfl)
  rw [Referring.symbols_run]
  exact hlength

end Bound

/-- A resolved program says about names what the program said that it was made from, and its
identifiers are bound to the symbols that come out of the runs over it. -/
theorem runs_of_resolve (h : resolve ie8 p = .ok (q, t)) :
    ∃ d, (q.innerEvents ie8).foldlM (Declaring.step q.fileName) q.declaring = .ok d
      ∧ t = ((q.innerEvents ie8).foldl Referring.step d.referring).tree.pin
      ∧ d.referring.Labelled (q.innerEvents ie8)
      ∧ ScopeEvent.Declares (q.innerEvents ie8) d.symbols.toList
      ∧ ∃ symbols, symbols.length = (ScopeEvent.idents (p.innerEvents ie8)).length
        ∧ q = p.bindIdents symbols := by
  rw [resolve_eq] at h
  cases hrun : (p.innerEvents ie8).foldlM (Declaring.step p.fileName) p.declaring with
  | error e =>
    rw [hrun] at h
    cases h
  | ok d =>
    rw [hrun] at h
    obtain ⟨hrun₁, hdeclares⟩ := declares_bindDeclared hrun
    obtain ⟨_, hagain⟩ := p.bindDeclared_spec ie8 d.symbols.toList
    have hlength := length_emitted_bindDeclared hrun
    cases h
    generalize p.bindDeclared ie8 d.symbols.toList = p₁ at *
    have hsymbols : ((p₁.innerEvents ie8).foldl Referring.step d.referring).symbols.toList
        = d.referring.emitted (p₁.innerEvents ie8) := Referring.symbols_run _ _
    rw [hsymbols]
    obtain ⟨hlabelled, hfold, hdeclares'⟩ := Referring.label_spec (r := d.referring) hdeclares
    obtain ⟨hdeclaring, hfile⟩ := declaring_eq (p₁.renamed_bindIdents
      (d.referring.emitted (p₁.innerEvents ie8)) ie8)
    refine ⟨d, ?_, ?_, ?_, ?_, _, hlength, hagain _ hlength⟩
    · rw [hdeclaring, hfile, innerEvents_bindIdents, ← Declaring.foldlM_unbound,
        ScopeEvent.unbound_label, Declaring.foldlM_unbound]
      exact hrun₁
    · rw [innerEvents_bindIdents, hfold]
    · rwa [innerEvents_bindIdents]
    · rwa [innerEvents_bindIdents]

end Runs

theorem Program.inv_declaring (p : Program) : p.declaring.Inv true := by
  have hscope : p.declaring.tree.scopes = #[({} : Declaring).newScope
      (if p.kind == .module then .module else .global) p.loc
      (p.kind == .module || ScopeEvent.usesStrict p.body)] := rfl
  have hsymbols : p.declaring.tree.symbols = #[] := rfl
  have hscopes : ∀ (id : Nat) (s : Scope), p.declaring.tree.scopes[id]? = some s →
      id = ScopeTree.root ∧ s.parent = none ∧ s.names = [] ∧ s.enclosed = [] := by
    intro id s hs
    rw [hscope] at hs
    obtain ⟨hlt, rfl⟩ := Array.getElem?_eq_some_iff.mp hs
    have hid : id = 0 := by simpa using hlt
    subst hid
    exact ⟨rfl, rfl, rfl, rfl⟩
  have hnone : ∀ (i : Nat) (s : Symbol), p.declaring.tree.symbols[i]? ≠ some s := by
    intro i s
    simp [hsymbols]
  exact {
    tabled := by
      refine ⟨?_, ?_⟩
      · intro scope name i
        have hleft : p.declaring.tree.declared? name scope ≠ some i := by
          intro h
          obtain ⟨s, hs, hfind⟩ := Option.bind_eq_some_iff.mp h
          rw [(hscopes scope s hs).2.2.1] at hfind
          cases hfind
        constructor
        · exact fun h => absurd h hleft
        · rintro ⟨⟨s, hs, _⟩, _⟩
          exact absurd hs (hnone i s)
      · intro id s hs
        simp [(hscopes id s hs).2.2.1]
    chain := .root (by rw [ScopeTree.frame?, hscope]; rfl) rfl
    hangs := by
      intro id f hf
      obtain ⟨s, hs, rfl⟩ := Option.map_eq_some_iff.mp hf
      exact .inl ⟨(hscopes id s hs).1, (hscopes id s hs).2.1⟩
    symbol := fun i s hs => absurd hs (hnone i s)
    enclosed := fun id s hs => (hscopes id s hs).2.2.2
    globals := rfl
    first := fun i _ s _ hs => absurd hs (hnone i s)
    bare := fun _ i s hs => absurd hs (hnone i s)
    declared := by simp [hsymbols]
    hoisted := rfl }

theorem Program.fits_innerEvents (ie8 : Bool) (p : Program) :
    ScopeEvent.fits 1 true (p.innerEvents ie8) = true := by
  have h := ScopeEvent.fit_stmts ie8 p.body 1 true [] (by omega) rfl
  rwa [List.append_nil] at h

namespace Declaring

variable {d : Declaring} {ie8 : Bool} {p : Program}

theorem course_of_run (hrun : (p.innerEvents ie8).foldlM (step p.fileName) p.declaring = .ok d) :
    Course p.fileName true (p.innerEvents ie8) p.declaring d :=
  ⟨p.inv_declaring, p.fits_innerEvents ie8, hrun⟩

theorem inv_of_run (hrun : (p.innerEvents ie8).foldlM (step p.fileName) p.declaring = .ok d) :
    d.Inv false :=
  (course_of_run hrun).inv_end

/-- The tree in which all names are declared is resolved as far as it goes. -/
theorem Inv.resolved {fresh : Bool} (h : d.Inv fresh) : d.tree.Resolved where
  tabled := h.tabled
  hangs := h.hangs
  scope_lt i x hx := by
    obtain ⟨s, hs, rfl⟩ := Option.map_eq_some_iff.mp hx
    exact (h.symbol i s hs).1
  undeclared i x hx := by
    obtain ⟨s, hs, rfl⟩ := Option.map_eq_some_iff.mp hx
    obtain ⟨_, hund, hglobal, _⟩ := h.symbol i s hs
    simp [Symbol.home, hund, hglobal]
  enclosed id i := by
    rintro ⟨s, hs, hmem⟩
    rw [h.enclosed id s hs] at hmem
    cases hmem
  globals name i := by
    constructor
    · intro hfound
      rw [h.globals] at hfound
      cases hfound
    · rintro ⟨x, hx, hund, _⟩
      obtain ⟨s, hs, rfl⟩ := Option.map_eq_some_iff.mp hx
      have := (h.symbol i s hs).2.1
      simp [Symbol.home, this] at hund

theorem ready_referring (hrun : (p.innerEvents ie8).foldlM (step p.fileName) p.declaring = .ok d) :
    d.referring.Ready (p.innerEvents ie8) := by
  have hinv := inv_of_run hrun
  obtain ⟨_, hextends, hbuilds⟩ := spot_run hrun
  refine ⟨⟨hinv.resolved, p.inv_declaring.chain.mono hextends, ?_⟩, hbuilds, _,
    p.fits_innerEvents ie8⟩
  intro id hid
  rw [List.mem_singleton.mp hid]
  exact Nat.one_pos

end Declaring

/-- What holds of the scopes and symbols of a resolved program. -/
theorem resolved_of_resolve (h : resolve ie8 p = .ok (q, t)) : t.Resolved ∧ t.PinsOutward := by
  obtain ⟨d, hrun, rfl, _⟩ := runs_of_resolve h
  obtain ⟨hfinal, _⟩ := (Declaring.ready_referring hrun).run
  obtain ⟨honly, hpins⟩ := ScopeTree.pin_spec hfinal.resolved.hangs
  refine ⟨hfinal.resolved.of_alike honly.size honly.toAlike, fun id parent hparent hpinned => ?_⟩
  rw [ScopeTree.parent?, honly.frame] at hparent
  exact (hpins parent).mpr (((hpins id).mp hpinned).parent hfinal.resolved.hangs hparent)

theorem root_lt_of_resolve (h : resolve ie8 p = .ok (q, t)) : ScopeTree.root < t.scopes.size := by
  obtain ⟨d, hrun, rfl, _⟩ := runs_of_resolve h
  obtain ⟨hfinal, _⟩ := (Declaring.ready_referring hrun).run
  rw [(ScopeTree.pin_spec hfinal.resolved.hangs).1.size]
  exact hfinal.chain.lt_size _ hfinal.chain.root_mem

/-- The symbols that are exported are those of the root or undeclared. -/
theorem exports_of_resolve (h : resolve ie8 p = .ok (q, t))
    (hexports : p.exportsOutermost ie8 = true) : t.Exports := by
  obtain ⟨d, hrun, rfl, _, _, symbols, _, rfl⟩ := runs_of_resolve h
  rw [Program.exportsOutermost, ← ScopeEvent.exportsOutermost_withIdent Ident.unbound,
    ← ScopeEvent.unbound, ← ScopeEvent.unbound_label _ symbols, ScopeEvent.unbound,
    ScopeEvent.exportsOutermost_withIdent, ← Program.innerEvents_bindIdents] at hexports
  generalize p.bindIdents symbols = q at *
  have hstart : q.declaring.tree.Exports := by
    intro i s hs
    exact absurd hs (by simp [show q.declaring.tree.symbols = #[] from rfl])
  have hdeclared := (Declaring.course_of_run hrun).exports hstart hexports
  have hready := Declaring.ready_referring hrun
  obtain ⟨hfinal, _⟩ := hready.run
  have hend := hready.exports_run hdeclared hexports
  exact hend.of_same fun i => by rw [(ScopeTree.pin_spec hfinal.resolved.hangs).1.symbols]

end Laconic
