import Laconic.Proofs.Scope.Refer
import Laconic.Proofs.Tree.Idents

/-!
# Runs over bound events

The run that declares names looks at texts and places only, whatever the identifiers of the
events are bound to.  The run that finds references also looks at the symbols of the declared
ones.  If they are bound, it comes to one symbol for each identifier (`emitted`).  Binding
the identifiers to these symbols changes nothing for it, and then a proof about the run knows
from an event alone which symbol will come out (`Labelled`).
-/

namespace Laconic

open ScopeEvent

/-! ## Other symbols -/

/-- An identifier without its symbol. -/
def Ident.unbound (id : Ident) : Ident := { id with symbol := none }

namespace ScopeEvent

/-- Events but for the symbols that their identifiers are bound to. -/
def unbound (events : List ScopeEvent) : List ScopeEvent := events.map (withIdent Ident.unbound)

theorem unbound_label (events : List ScopeEvent) (symbols : List Nat) :
    unbound (label events symbols) = unbound events := by
  fun_induction label events symbols with
  | case1 => rfl
  | case2 id kind exported loop es symbol symbols ih | case3 id access exported es symbol symbols ih
  | case4 e es symbols _ _ ih => exact congrArg (_ :: ·) ih

theorem unbound_labelDeclared (events : List ScopeEvent) (symbols : List Nat) :
    unbound (labelDeclared events symbols) = unbound events := by
  fun_induction labelDeclared events symbols with
  | case1 => rfl
  | case2 id kind exported loop es symbol symbols ih | case3 e es symbols _ ih =>
    exact congrArg (_ :: ·) ih

theorem exportsOutermost_withIdent (g : Ident → Ident) (depth : Nat) (events : List ScopeEvent) :
    exportsOutermost depth (events.map (withIdent g)) = exportsOutermost depth events := by
  fun_induction exportsOutermost depth events <;> simp_all [withIdent, exportsOutermost]

end ScopeEvent

/-- Whether only outermost declarations and references of a program are exported. -/
def Program.exportsOutermost (ie8 : Bool) (p : Program) : Bool :=
  ScopeEvent.exportsOutermost 1 (p.innerEvents ie8)

theorem Declaring.foldlM_unbound (fileName : Span → String) (events : List ScopeEvent)
    (d : Declaring) :
    (unbound events).foldlM (step fileName) d = events.foldlM (step fileName) d := by
  rw [unbound, List.foldlM_map]
  congr 1
  funext d e
  cases e <;> rfl

/-! ## The symbols of a run -/

def ScopeEvent.isDeclare : ScopeEvent → Bool
  | .declare .. => true
  | _ => false

/-- The symbol that a declared identifier is bound to. -/
def ScopeEvent.declared? : ScopeEvent → Option Nat
  | .declare id .. => id.symbol
  | _ => none

/-- The declared identifiers of events are bound to symbols, those of a list. -/
structure ScopeEvent.Declares (events : List ScopeEvent) (symbols : List Nat) : Prop where
  bound : ∀ e ∈ events, e.isDeclare = true → e.declared?.isSome = true
  symbols : events.filterMap declared? = symbols

namespace ScopeEvent.Declares

variable {events : List ScopeEvent} {symbols : List Nat}

theorem labelDeclared (h : events.countP (·.isDeclare) = symbols.length) :
    Declares (ScopeEvent.labelDeclared events symbols) symbols := by
  induction events generalizing symbols with
  | nil => exact ⟨nofun, (List.length_eq_zero_iff.mp h.symm).symm⟩
  | cons e rest ih =>
    cases e with
    | declare id kind exported loop =>
      cases symbols with
      | nil => simp [isDeclare] at h
      | cons symbol symbols =>
        have hrest := ih (by simpa [isDeclare] using h)
        exact ⟨List.forall_mem_cons.mpr ⟨fun _ => rfl, hrest.bound⟩,
          congrArg (symbol :: ·) hrest.symbols⟩
    | enter | leave | refer | this =>
      have hrest := ih (by simpa [isDeclare] using h)
      exact ⟨List.forall_mem_cons.mpr ⟨nofun, hrest.bound⟩, hrest.symbols⟩

/-- Identifiers that are bound already are bound to the same symbols again. -/
theorem labelDeclared_eq (h : Declares events symbols) :
    ScopeEvent.labelDeclared events symbols = events := by
  obtain ⟨hbound, rfl⟩ := h
  induction events with
  | nil => rfl
  | cons e rest ih =>
    have hrest := ih fun e he => hbound e (List.mem_cons_of_mem _ he)
    cases e with
    | declare id kind exported loop =>
      obtain ⟨loc, name, symbol⟩ := id
      obtain ⟨i, rfl⟩ := Option.isSome_iff_exists.mp (hbound _ List.mem_cons_self rfl)
      exact congrArg (_ :: ·) hrest
    | enter | leave | refer | this => exact congrArg (_ :: ·) hrest

theorem map_withIdent {g : Ident → Ident} (hg : ∀ id, (g id).symbol = id.symbol)
    (h : Declares events symbols) : Declares (events.map (withIdent g)) symbols := by
  have hsame : ∀ e : ScopeEvent, (e.withIdent g).isDeclare = e.isDeclare
      ∧ (e.withIdent g).declared? = e.declared? := by
    intro e
    cases e with
    | declare id => exact ⟨rfl, hg id⟩
    | enter | leave | refer | this => exact ⟨rfl, rfl⟩
  constructor
  · refine List.forall_mem_map.mpr fun e he => ?_
    rw [(hsame e).1, (hsame e).2]
    exact h.bound e he
  · rw [List.filterMap_map, ← h.symbols]
    exact List.filterMap_congr fun e _ => (hsame e).2

theorem cons {e : ScopeEvent} (h : Declares (e :: events) symbols) :
    Declares events (events.filterMap declared?) :=
  ⟨fun e he => h.bound e (List.mem_cons_of_mem _ he), rfl⟩

theorem symbol_eq {id : Ident} {kind : BindingKind} {exported loop : Bool}
    (h : Declares (.declare id kind exported loop :: events) symbols) :
    ∃ i, id.symbol = some i :=
  Option.isSome_iff_exists.mp (h.bound _ List.mem_cons_self rfl)

end ScopeEvent.Declares

namespace Referring

variable {r : Referring} {events rest : List ScopeEvent} {symbols : List Nat}

/-- The symbols that an event is about. -/
def emits (r : Referring) : ScopeEvent → List Nat
  | .declare id .. => id.symbol.toList
  | .refer id access _ => [(r.refer id access).2]
  | _ => []

/-- The symbols that events are about. -/
def emitted (r : Referring) : List ScopeEvent → List Nat
  | [] => []
  | e :: es => r.emits e ++ (r.step e).emitted es

theorem symbols_step (r : Referring) (e : ScopeEvent) :
    (r.step e).symbols.toList = r.symbols.toList ++ r.emits e := by
  cases e with
  | enter | leave => simp [step, emits]
  | declare id kind exported loop =>
    simp only [step, emits]
    cases id.symbol with
    | none => simp
    | some symbol => simp
  | refer id access exported =>
    obtain ⟨crossed, heq⟩ := refer_eq r id access
    simp [step, emits, heq]
  | this =>
    simp only [step, emits]
    split <;> simp

theorem symbols_run (r : Referring) (events : List ScopeEvent) :
    (events.foldl step r).symbols.toList = r.symbols.toList ++ r.emitted events := by
  induction events generalizing r with
  | nil => simp [emitted]
  | cons e rest ih => rw [List.foldl_cons, ih, symbols_step, emitted, List.append_assoc]

theorem length_emitted (h : Declares events symbols) :
    (r.emitted events).length = (idents events).length := by
  induction events generalizing r symbols with
  | nil => rfl
  | cons e rest ih =>
    rw [emitted, List.length_append, ih h.cons]
    cases e with
    | declare id kind exported loop =>
      obtain ⟨i, hi⟩ := h.symbol_eq
      simp [emits, hi, idents, ident?, Nat.add_comm]
    | refer => simp [emits, idents, ident?, Nat.add_comm]
    | enter | leave | this => exact Nat.zero_add _

/-- Each identifier of events is bound to the symbol that the run finds. -/
def Labelled (r : Referring) : List ScopeEvent → Prop
  | [] => True
  | e :: es => (∀ id, e.ident? = some id → ∃ i, id.symbol = some i ∧ r.emits e = [i])
    ∧ (r.step e).Labelled es

theorem Labelled.map_symbol (h : r.Labelled events) :
    (idents events).map (·.symbol) = (r.emitted events).map some := by
  induction events generalizing r with
  | nil => rfl
  | cons e rest ih =>
    have hrest := ih h.2
    rw [emitted, List.map_append, ← hrest]
    cases e with
    | declare id | refer id =>
      obtain ⟨i, hi, hemits⟩ := h.1 id rfl
      rw [hemits]
      exact congrArg (· :: _) hi
    | enter | leave | this => rfl

/-- Binding the identifiers of events to the symbols of a run changes nothing for the run. -/
theorem label_spec (h : Declares events symbols) :
    r.Labelled (label events (r.emitted events))
      ∧ (label events (r.emitted events)).foldl step r = events.foldl step r
      ∧ Declares (label events (r.emitted events)) symbols := by
  obtain ⟨hbound, rfl⟩ := h
  induction events generalizing r with
  | nil => exact ⟨trivial, rfl, nofun, rfl⟩
  | cons e rest ih =>
    obtain ⟨hlabelled, hfold, hbound', hsymbols⟩ :=
      ih (r := r.step e) fun e he => hbound e (List.mem_cons_of_mem _ he)
    cases e with
    | declare id kind exported loop =>
      obtain ⟨loc, name, symbol⟩ := id
      obtain ⟨i, rfl⟩ := Option.isSome_iff_exists.mp (hbound _ List.mem_cons_self rfl)
      refine ⟨⟨?_, hlabelled⟩, hfold, List.forall_mem_cons.mpr ⟨fun _ => rfl, hbound'⟩,
        congrArg (i :: ·) hsymbols⟩
      rintro _ ⟨⟩
      exact ⟨i, rfl, rfl⟩
    | refer id access exported =>
      refine ⟨⟨?_, hlabelled⟩, hfold, List.forall_mem_cons.mpr ⟨nofun, hbound'⟩, hsymbols⟩
      rintro _ ⟨⟩
      exact ⟨_, rfl, rfl⟩
    | enter | leave | this =>
      exact ⟨⟨nofun, hlabelled⟩, hfold, List.forall_mem_cons.mpr ⟨nofun, hbound'⟩, hsymbols⟩

end Referring

namespace Declaring

variable {fileName : Span → String} {events : List ScopeEvent}
variable {d d' : Declaring}

theorem symbols_step {e : ScopeEvent} (h : d.step fileName e = .ok d') :
    ∃ new, d'.symbols.toList = d.symbols.toList ++ new
      ∧ new.length = if e.isDeclare then 1 else 0 := by
  cases e with
  | declare id kind exported loop =>
    obtain ⟨d₁, i, hd, rfl⟩ := step_declare h
    have hsymbols : d₁.symbols = d.symbols := by
      obtain ⟨_, ⟨_, heq⟩ | ⟨old, _, _, _, heq⟩⟩ := declare?_cases hd <;> cases heq <;> rfl
    exact ⟨[i], by simp [hsymbols], rfl⟩
  | enter | leave | refer | this =>
    cases h
    exact ⟨[], (List.append_nil _).symm, rfl⟩

theorem symbols_run (h : events.foldlM (step fileName) d = .ok d') :
    ∃ new, d'.symbols.toList = d.symbols.toList ++ new
      ∧ new.length = events.countP (·.isDeclare) := by
  induction events generalizing d with
  | nil =>
    cases h
    exact ⟨[], (List.append_nil _).symm, rfl⟩
  | cons e rest ih =>
    obtain ⟨d₁, hstep, hrest⟩ := foldlM_cons_eq_ok h
    obtain ⟨first, hfirst, hlength⟩ := symbols_step hstep
    obtain ⟨second, hsecond, hlength'⟩ := ih hrest
    refine ⟨first ++ second, by rw [hsecond, hfirst, List.append_assoc], ?_⟩
    rw [List.length_append, hlength, hlength', List.countP_cons]
    omega

def Labelled (fileName : Span → String) (d : Declaring) : List ScopeEvent → Prop
  | [] => True
  | e :: es => ∀ d', d.step fileName e = .ok d' →
    (∀ id kind exported loop, e = .declare id kind exported loop →
        ∃ i, id.symbol = some i ∧ d'.symbols = d.symbols.push i)
      ∧ d'.Labelled fileName es

theorem labelled_of_declares (hrun : events.foldlM (step fileName) d = .ok d')
    {symbols : List Nat} (hsymbols : d'.symbols.toList = d.symbols.toList ++ symbols)
    (h : Declares events symbols) : d.Labelled fileName events := by
  induction events generalizing d symbols with
  | nil => trivial
  | cons e rest ih =>
    intro d₁ hstep
    obtain ⟨d₂, hstep', hrest⟩ := foldlM_cons_eq_ok hrun
    cases Except.ok.inj (hstep.symm.trans hstep')
    obtain ⟨first, hfirst, hlength⟩ := symbols_step hstep
    obtain ⟨second, hsecond, _⟩ := symbols_run hrest
    have hsplit : first ++ second = (e :: rest).filterMap declared? := by
      rw [hsecond, hfirst, List.append_assoc, ← h.symbols] at hsymbols
      exact List.append_cancel_left hsymbols
    cases e with
    | declare id kind exported loop =>
      obtain ⟨i, hi⟩ := h.symbol_eq
      obtain ⟨j, rfl⟩ := List.length_eq_one_iff.mp hlength
      rw [List.filterMap_cons_some (show declared? (.declare id kind exported loop)
        = some i from hi)]
        at hsplit
      obtain ⟨rfl, hsecond'⟩ := List.cons.inj hsplit
      refine ⟨?_, ih hrest (hsecond' ▸ hsecond) h.cons⟩
      rintro _ _ _ _ ⟨⟩
      exact ⟨j, hi, Array.toList_inj.mp (by rw [hfirst]; simp)⟩
    | enter | leave | refer | this =>
      cases List.length_eq_zero_iff.mp hlength
      exact ⟨nofun, ih hrest (hsplit ▸ hsecond) h.cons⟩

end Declaring

end Laconic
