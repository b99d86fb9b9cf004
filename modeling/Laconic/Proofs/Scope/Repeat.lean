import Laconic.Proofs.Scope.Lexical

/-!
# Resolving a program again

The symbols that the names of a program are bound to are those of an earlier run, if there was
one.  The run that declares names looks at texts and places only.  The run that finds
references does look at the symbols of declared names, but these are bound anew before it, and
in the end there is a new symbol for every name of the program, so that no old one is left.
-/

namespace Laconic

/-- Symbols for all names leave nothing of the old ones. -/
theorem Ident.bindAll_unbound {ids : List Ident} {symbols : List Nat}
    (h : symbols.length = ids.length) :
    bindAll (ids.map unbound) symbols = bindAll ids symbols
      ∧ (bindAll ids symbols).map unbound = ids.map unbound := by
  induction ids generalizing symbols with
  | nil => exact ⟨rfl, by cases symbols <;> rfl⟩
  | cons id ids ih =>
    cases symbols with
    | nil => cases h
    | cons symbol symbols =>
      obtain ⟨hbind, hclear⟩ := ih (Nat.succ.inj h)
      exact ⟨congrArg (id.bound symbol :: ·) hbind, congrArg (id.unbound :: ·) hclear⟩

namespace Program

/-- A program without the symbols of its identifiers. -/
def unbound (p : Program) : Program := p.mapIdents Ident.unbound

/-- Earlier bindings do not matter to new ones. -/
theorem bindIdents_unbound (ie8 : Bool) {p : Program} {symbols : List Nat}
    (h : symbols.length = (ScopeEvent.idents (p.innerEvents ie8)).length) :
    p.unbound.bindIdents symbols = p.bindIdents symbols
      ∧ (p.bindIdents symbols).unbound = p.unbound := by
  obtain ⟨build, hself, hbuild⟩ := p.exists_build ie8
  obtain ⟨_, hsame⟩ := hbuild _ rfl
  obtain ⟨_, hcleared⟩ := hbuild _ (List.length_map Ident.unbound)
  obtain ⟨_, hbound⟩ := hbuild _ (Ident.length_bindAll _ symbols)
  have hmap := mapIdents_build hsame Ident.unbound
  have hbind := bindIdents_build hsame symbols
  rw [hself] at hmap hbind
  obtain ⟨hbind', hclear⟩ := Ident.bindAll_unbound h
  unfold unbound
  constructor
  · rw [hmap, bindIdents_build hcleared, hbind', hbind]
  · rw [hbind, mapIdents_build hbound, hclear, hmap]

end Program

/-- The run that finds references looks at the symbols of declared names only, and these are
overwritten before it. -/
theorem Referring.foldl_labelDeclared_unbound {events : List ScopeEvent} {symbols : List Nat}
    (h : events.countP (·.isDeclare) = symbols.length) (r : Referring) :
    (ScopeEvent.labelDeclared (ScopeEvent.unbound events) symbols).foldl step r
      = (ScopeEvent.labelDeclared events symbols).foldl step r := by
  induction events generalizing symbols r with
  | nil => rfl
  | cons e rest ih =>
    cases e with
    | declare id kind exported loop =>
      cases symbols with
      | nil => simp [ScopeEvent.isDeclare] at h
      | cons symbol symbols => exact ih (by simpa [ScopeEvent.isDeclare] using h) _
    | enter | leave | refer | this => exact ih (by simpa [ScopeEvent.isDeclare] using h) _

variable {ie8 : Bool} {p q : Program}

/-- A program is resolved as it is without symbols of an earlier run. -/
theorem resolve_unbound (ie8 : Bool) (p : Program) : resolve ie8 p.unbound = resolve ie8 p := by
  obtain ⟨hdeclaring, hfile⟩ := Program.declaring_eq (p.renamed_mapIdents Ident.unbound ie8)
  have hevents : p.unbound.innerEvents ie8 = ScopeEvent.unbound (p.innerEvents ie8) :=
    p.innerEvents_mapIdents Ident.unbound ie8
  have hsame : (p.unbound.innerEvents ie8).foldlM (Declaring.step p.unbound.fileName)
      p.unbound.declaring
        = (p.innerEvents ie8).foldlM (Declaring.step p.fileName) p.declaring := by
    rw [hevents, Declaring.foldlM_unbound]
    exact congrArg₂ (fun fileName d => (p.innerEvents ie8).foldlM (Declaring.step fileName) d)
      hfile hdeclaring
  cases hrun : (p.innerEvents ie8).foldlM (Declaring.step p.fileName) p.declaring with
  | error e => rw [resolve_eq, resolve_eq, hsame, hrun]; rfl
  | ok d =>
    obtain ⟨new, hnew, hcount⟩ := Declaring.symbols_run hrun
    have hfold := Referring.foldl_labelDeclared_unbound
      (hcount.symm.trans (congrArg List.length hnew).symm) d.referring
    have hlength := length_emitted_bindDeclared hrun
    rw [resolve_eq_of_run hrun, resolve_eq_of_run (hsame.trans hrun), hevents, hfold]
    refine congrArg Except.ok (Prod.ext (Program.bindIdents_unbound ie8 ?_).1 rfl)
    rw [← Program.innerEvents_bindDeclared, Referring.symbols_run]
    exact hlength

/-! ## The scopes of both runs -/

/-- What an event means for the scopes that a run is in. -/
def ScopeEvent.move (e : ScopeEvent) (s : Spot) : Spot := s.step e

theorem foldl_step_eq (events : List ScopeEvent) (s : Spot) :
    events.foldl Spot.step s = (events.map ScopeEvent.move).foldl (fun s f => f s) s := by
  rw [List.foldl_map]
  rfl

theorem Referring.spot_run (r : Referring) (events : List ScopeEvent) :
    (events.foldl step r).spot = events.foldl Spot.step r.spot := by
  induction events generalizing r with
  | nil => rfl
  | cons e rest ih => rw [List.foldl_cons, ih, spot_step, List.foldl_cons]

/-- Binding declared names does not change where scopes begin and end. -/
theorem Program.moves_bindDeclared (ie8 : Bool) (p : Program) (symbols : List Nat) :
    ((p.bindDeclared ie8 symbols).scopeEvents ie8).map ScopeEvent.move
      = (p.scopeEvents ie8).map ScopeEvent.move := by
  have hunbound : ∀ events : List ScopeEvent,
      (ScopeEvent.unbound events).map ScopeEvent.move = events.map ScopeEvent.move := by
    intro events
    rw [ScopeEvent.unbound, List.map_map]
    refine List.map_congr_left fun e _ => ?_
    cases e <;> rfl
  have hinner : ((p.bindDeclared ie8 symbols).innerEvents ie8).map ScopeEvent.move
      = (p.innerEvents ie8).map ScopeEvent.move := by
    rw [innerEvents_bindDeclared, ← hunbound, ScopeEvent.unbound_labelDeclared, hunbound]
  rw [scopeEvents_eq, scopeEvents_eq, List.map_cons, List.map_cons, List.map_append,
    List.map_append, hinner]
  rfl

/-- Resolution does not depend on the symbols that names are bound to before it, so a resolved
program is resolved again as it is.  The run that finds references goes through the scopes
that the run before has made: after as many events it is in the same scopes, and has met as
many. -/
theorem resolution_repeats (ie8 : Bool) (p : Program) :
    (∀ q, q.mapIdents Ident.unbound = p.mapIdents Ident.unbound → resolve ie8 q = resolve ie8 p)
      ∧ (∀ q t, resolve ie8 p = .ok (q, t) → resolve ie8 q = .ok (q, t))
      ∧ ∀ d, (p.scopeEvents ie8).foldlM (Declaring.step p.fileName) {} = .ok d → ∀ n,
        ∃ d₁, ((p.scopeEvents ie8).take n).foldlM (Declaring.step p.fileName) {} = .ok d₁
          ∧ let r := (((p.bindDeclared ie8 d.symbols.toList).scopeEvents ie8).take n).foldl
              Referring.step { tree := d.tree }
            r.stack = d₁.stack ∧ r.next = d₁.tree.scopes.size := by
  have hcongr : ∀ q, q.unbound = p.unbound → resolve ie8 q = resolve ie8 p := by
    intro q h
    rw [← resolve_unbound, h, resolve_unbound]
  refine ⟨hcongr, fun q t h => ?_, fun d hrun n => ?_⟩
  · obtain ⟨_, _, _, _, _, symbols, hlength, rfl⟩ := runs_of_resolve h
    rw [hcongr _ (Program.bindIdents_unbound ie8 hlength).2, h]
  · rw [← List.take_append_drop n (p.scopeEvents ie8), List.foldlM_append] at hrun
    cases hpre : ((p.scopeEvents ie8).take n).foldlM (Declaring.step p.fileName) {} with
    | error e =>
      rw [hpre] at hrun
      cases hrun
    | ok d₁ =>
      obtain ⟨hspot, _, _⟩ := Declaring.spot_run hpre
      have hsame : ((((p.bindDeclared ie8 d.symbols.toList).scopeEvents ie8).take n).foldl
          Referring.step { tree := d.tree }).spot = d₁.spot := by
        rw [hspot, Referring.spot_run, foldl_step_eq, foldl_step_eq, List.map_take, List.map_take,
          Program.moves_bindDeclared]
        rfl
      exact ⟨d₁, rfl, congrArg Spot.stack hsame, congrArg Spot.next hsame⟩

/-- Symbols of an earlier run make no difference. -/
theorem resolution_repeats_keyLoop : keyLoop.mapIdents (·.bound 7) ≠ keyLoop
    ∧ resolve false (keyLoop.mapIdents (·.bound 7)) = resolve false keyLoop :=
  ⟨nofun, (resolution_repeats false keyLoop).1 _ rfl⟩

end Laconic
