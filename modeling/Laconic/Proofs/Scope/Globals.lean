import Laconic.Proofs.Scope.Resolve

/-!
# Global symbols

A name that no scope declares stands for a global symbol.  The search for it goes
through all scopes around the reference, and each of them encloses the symbol
afterwards.  The outermost scope is among them at every reference, so it encloses
every global symbol of a resolved program.
-/

namespace Laconic

variable {t : ScopeTree}

def ScopeTree.GlobalsEnclosed (t : ScopeTree) : Prop :=
  ∀ name i, t.globals.find? name = some i → t.Encloses root i

theorem ScopeTree.GlobalsEnclosed.of_grows {u : ScopeTree} (h : t.GlobalsEnclosed)
    (hgrows : t.Grows u) (hglobals : u.globals = t.globals) : u.GlobalsEnclosed := by
  intro name i hi
  rw [hglobals] at hi
  exact hgrows.encloses _ _ (h name i hi)

namespace Referring

variable {t : ScopeTree} {r : Referring}

theorem globals_locate {name m : String} {stack : List Nat} {j : Nat}
    (h : (locate t name stack).1.globals.find? m = some j) :
    t.globals.find? m = some j ∨ m = name ∧ j = (locate t name stack).2 := by
  rcases locate_cases t name stack with ⟨i, heq⟩ | ⟨scope, heq⟩ | heq
  · rw [heq] at h
    exact .inl h
  · rw [heq] at h
    exact .inl h
  · rw [heq] at h ⊢
    rw [ScopeTree.globals_withGlobal, NameTable.find?_insert] at h
    split at h
    · next hm => exact .inr ⟨hm, (Option.some.inj h).symm⟩
    · exact .inl h

theorem encloses_settle {i : Nat} (h : t.Resolved) (hchain : t.Chain r.stack) {x : Home}
    (hx : t.home? i = some x) (hund : x.undeclared = true) (id : Ident) (access : Access)
    (crossed : Bool) : (settle r id access crossed t i).Encloses ScopeTree.root i := by
  obtain ⟨_, _, _, hencloses⟩ := settle_keeps r id access crossed t i
  refine hencloses x hx _ ?_ (hchain.lt_size _ hchain.root_mem)
  rw [(h.undeclared i x hx).2 hund, upTo_root hchain]
  exact hchain.root_mem

theorem globalsEnclosed_refer (h : r.Inv) (hglobals : r.tree.GlobalsEnclosed) (id : Ident)
    (access : Access) : (r.refer id access).1.tree.GlobalsEnclosed := by
  obtain ⟨crossed, heq⟩ := refer_eq r id access
  obtain ⟨hresolved, hgrows, hlocated⟩ := locate_spec h.resolved id.name h.chain
  have hchain := hgrows.chain h.chain
  obtain ⟨_, hgrows'⟩ := settle_spec hresolved hchain hlocated access crossed
  intro m j hj
  rw [heq] at hj ⊢
  rw [(settle_keeps r id access crossed _ _).2.2.1] at hj
  rcases globals_locate hj with hold | ⟨_, rfl⟩
  · exact (hgrows.trans hgrows').encloses _ _ (hglobals m j hold)
  · obtain ⟨x, hx, hund, _⟩ := (hresolved.globals m _).mp hj
    exact encloses_settle hresolved hchain hx hund id access crossed

end Referring

namespace ScopeTree.GlobalsEnclosed

variable {r : Referring}

theorem step (h : r.tree.GlobalsEnclosed) (hinv : r.Inv) (e : ScopeEvent) :
    (r.step e).tree.GlobalsEnclosed := by
  obtain ⟨halike, _⟩ := Referring.alike_step r e
  have hsearched : (r.searched e).GlobalsEnclosed := by
    cases e with
    | refer id access exported => exact Referring.globalsEnclosed_refer hinv h id access
    | enter | leave | declare | this => exact h
  exact hsearched.of_grows halike.grows halike.globals

theorem run (h : r.tree.GlobalsEnclosed) {events : List ScopeEvent} (hr : r.Ready events) :
    (events.foldl Referring.step r).tree.GlobalsEnclosed := by
  induction events generalizing r with
  | nil => exact h
  | cons e rest ih => exact ih (h.step hr.inv e) hr.step.1

end ScopeTree.GlobalsEnclosed

/-- The root encloses the globals that a program uses. -/
theorem globalsEnclosed_of_resolve {ie8 : Bool} {p q : Program} (h : resolve ie8 p = .ok (q, t)) :
    t.GlobalsEnclosed := by
  obtain ⟨d, hrun, rfl, _⟩ := runs_of_resolve h
  have hready := Declaring.ready_referring hrun
  have hstart : d.referring.tree.GlobalsEnclosed := by
    intro name i hi
    have hnone : d.tree.globals = [] := (Declaring.inv_of_run hrun).globals
    rw [show d.referring.tree.globals = [] from hnone] at hi
    cases hi
  obtain ⟨hfinal, _⟩ := hready.run
  have halike := (ScopeTree.pin_spec hfinal.resolved.hangs).1.toAlike
  exact (hstart.run hready).of_grows halike.grows halike.globals

end Laconic
