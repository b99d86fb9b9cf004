import Laconic.Proofs.Rename.Bindings

/-!
# Where symbols are read and written

A symbol notes where it is read and how often it is written.  Both are counts over
the events of the program: an event is about one symbol, and only that symbol notes
it.  The search for a name may add symbols on its way, but a symbol that is new has
not been used yet, so the search itself changes no note (`usage_locate`).
-/

namespace Laconic

open ScopeTree ScopeEvent

variable {n : Nat} {e : ScopeEvent}

/-! ## Uses -/

namespace ScopeEvent

/-- The place where an event reads a symbol. -/
def readOf? (n : Nat) : ScopeEvent → Option Span
  | .refer id access _ => if id.symbol = some n ∧ access ≠ .write then some id.loc else none
  | _ => none

/-- Whether an event writes to a symbol.  What is declared in the head of a loop over
an object is written in each round. -/
def writes (n : Nat) : ScopeEvent → Bool
  | .refer id access _ => id.symbol == some n && access != .read
  | .declare id _ _ loop => id.symbol == some n && loop
  | _ => false

end ScopeEvent

/-- The places where a symbol is read, and how often it is written. -/
structure Usage where
  reads : List Span := []
  writes : Nat := 0
deriving DecidableEq

/-- The places where a symbol is read, and how often it is written. -/
def Symbol.usage (s : Symbol) : Usage := ⟨s.references, s.assignments⟩

/-- Adds the use of a symbol by an event. -/
def Usage.add (u : Usage) (n : Nat) (e : ScopeEvent) : Usage where
  reads := u.reads ++ (e.readOf? n).toList
  writes := u.writes + (e.writes n).toNat

theorem Usage.foldl_add (n : Nat) (events : List ScopeEvent) (u : Usage) :
    events.foldl (Usage.add · n) u
      = ⟨u.reads ++ events.filterMap (·.readOf? n), u.writes + events.countP (·.writes n)⟩ := by
  induction events generalizing u with
  | nil => simp
  | cons e rest ih =>
    rw [List.foldl_cons, ih, Usage.mk.injEq]
    constructor
    · rw [List.filterMap_cons, Usage.add]
      cases e.readOf? n with
      | none => simp
      | some loc => simp
    · rw [List.countP_cons, Usage.add]
      cases e.writes n with
      | false => simp
      | true =>
        simp only [Bool.toNat_true, if_true]
        omega

theorem Usage.add_of_ne (h : ∀ id, e.ident? = some id → id.symbol ≠ some n) (u : Usage) :
    u.add n e = u := by
  have hreads : e.readOf? n = none := by
    cases e with
    | refer id access exported => simp [readOf?, h id rfl]
    | _ => rfl
  have hwrites : e.writes n = false := by
    cases e with
    | refer id access exported | declare id kind exported loop => simp [ScopeEvent.writes, h id rfl]
    | _ => rfl
  rw [Usage.add, hreads, hwrites]
  simp

theorem Usage.add_of_ident? (h : e.ident? = none) (n : Nat) (u : Usage) : u.add n e = u := by
  refine add_of_ne ?_ u
  intro id hid
  rw [h] at hid
  cases hid

namespace ScopeTree

variable {t : ScopeTree}

/-- The usage of a symbol; one that is not there yet has not been used. -/
def usage (t : ScopeTree) (n : Nat) : Usage := (t.symbols[n]?.map Symbol.usage).getD {}

theorem usage_eq {u : ScopeTree} {n : Nat}
    (h : u.symbols[n]?.map Symbol.usage = t.symbols[n]?.map Symbol.usage) :
    u.usage n = t.usage n := by
  rw [usage, usage, h]

theorem usage_addSymbol (t : ScopeTree) (name : String) (kind : BindingKind) (scope : Nat)
    (loc : Span) (n : Nat) : (t.addSymbol name kind scope loc).1.usage n = t.usage n := by
  rw [usage, symbols_addSymbol, Array.getElem?_push]
  split
  · next h =>
    subst h
    simp [usage, Symbol.usage, newSymbol]
  · rfl

theorem usage_modifySymbol {i : Nat} {e : ScopeEvent} {f : Symbol → Symbol}
    (hi : i < t.symbols.size) (he : ∀ id, e.ident? = some id → id.symbol = some i)
    (hf : ∀ s, (f s).usage = s.usage.add i e) (n : Nat) :
    (t.modifySymbol i f).usage n = (t.usage n).add n e := by
  rw [usage, getElem?_symbols_modifySymbol]
  split
  · next h =>
    subst h
    simp [usage, Array.getElem?_eq_getElem hi, hf]
  · next h =>
    refine (Usage.add_of_ne ?_ _).symm
    intro id hid
    rw [he id hid]
    simpa using h

theorem usage_markExported (t : ScopeTree) (i n : Nat) :
    (t.markExported i).usage n = t.usage n := by
  refine usage_eq ?_
  apply map_getElem?_modifySymbol
  intro s
  rfl

end ScopeTree

/-! ## Declaring names -/

namespace Declaring

variable {fileName : Span → String} {d d' : Declaring}

theorem usage_declare? {name : String} {kind : BindingKind} {loc : Span} {i : Nat}
    (h : d.declare? name kind loc = some (d', i)) (n : Nat) : d'.tree.usage n = d.tree.usage n := by
  rcases (declare?_cases h).2 with ⟨_, heq⟩ | ⟨old, _, _, _, heq⟩
  · cases heq
    exact usage_addSymbol _ _ _ _ _ n
  · cases heq
    exact usage_eq (map_getElem?_retree d.tree i old kind loc Symbol.usage (fun _ _ _ => rfl) n)

theorem usage_step {e : ScopeEvent} (h : d.step fileName e = .ok d') (n : Nat) :
    d'.tree.usage n = d.tree.usage n := by
  cases e with
  | enter kind loc strict =>
    cases h
    rw [usage, symbols_enter, usage]
  | declare id kind exported loop =>
    obtain ⟨d₁, i, hd, rfl⟩ := step_declare h
    have hdeclared := usage_declare? hd n
    cases exported with
    | false => exact hdeclared
    | true => exact (usage_markExported d₁.tree i n).trans hdeclared
  | leave | refer | this =>
    cases h
    rfl

theorem usage_run {events : List ScopeEvent} (h : events.foldlM (step fileName) d = .ok d')
    (n : Nat) : d'.tree.usage n = d.tree.usage n := by
  induction events generalizing d with
  | nil =>
    cases h
    rfl
  | cons e rest ih =>
    obtain ⟨d₁, hstep, hrest⟩ := foldlM_cons_eq_ok h
    rw [ih hrest, usage_step hstep]

end Declaring

/-! ## Finding names -/

namespace Referring

variable {r : Referring}

theorem usage_locate (t : ScopeTree) (name : String) (stack : List Nat) (n : Nat) :
    (locate t name stack).1.usage n = t.usage n := by
  rcases locate_cases t name stack with ⟨i, heq⟩ | ⟨scope, heq⟩ | heq
  · rw [heq]
  · rw [heq]
    exact usage_addSymbol _ _ _ _ _ n
  · rw [heq]
    exact usage_addSymbol t name .global root .nowhere n

theorem usage_noteAccess {id : Ident} {i : Nat} (hid : id.symbol = some i) (access : Access)
    (crossed exported : Bool) (s : Symbol) :
    (noteAccess access id.loc crossed s).usage = s.usage.add i (.refer id access exported) := by
  cases access <;>
    simp [noteAccess, Symbol.usage, Usage.add, readOf?, writes, hid] <;> rfl

theorem usage_step (hr : r.Inv) {e : ScopeEvent}
    (hlabel : ∀ id, e.ident? = some id → ∃ i, id.symbol = some i ∧ r.emits e = [i])
    (hdeclared : ∀ a ∈ (e.site? r.spot).toList, ∀ i kind, a.Declares i kind →
      ∃ x, r.tree.home? i = some x) (n : Nat) :
    (r.step e).tree.usage n = (r.tree.usage n).add n e := by
  cases e with
  | enter | leave => exact (Usage.add_of_ident? rfl n _).symm
  | this =>
    rw [Usage.add_of_ident? rfl]
    simp only [step]
    split <;> rfl
  | declare id kind exported loop =>
    obtain ⟨i, hid, _⟩ := hlabel id rfl
    obtain ⟨x, hx⟩ := hdeclared ⟨r.stack, id, some kind⟩ (by simp [site?, spot]) i kind
      ⟨hid, rfl⟩
    simp only [step, hid]
    cases loop with
    | false => simp [Usage.add, readOf?, writes]
    | true =>
      refine usage_modifySymbol (e := .declare id kind exported true) (lt_size_of_home? hx) ?_ ?_ n
      · rintro _ ⟨⟩
        exact hid
      · intro s
        simp [Symbol.usage, Usage.add, readOf?, writes, hid]
  | refer id access exported =>
    obtain ⟨i, hid, hemits⟩ := hlabel id rfl
    obtain ⟨crossed, heq⟩ := refer_eq r id access
    obtain ⟨hresolved, _, hlocated⟩ := locate_spec hr.resolved id.name hr.chain
    obtain ⟨x, hx, _⟩ := hlocated.home? hresolved
    have hi : (locate r.tree id.name r.stack).2 = i := by
      simpa [emits, heq] using hemits
    dsimp only at heq
    rw [hi] at hx heq
    have hsettle : (settle r id access crossed (locate r.tree id.name r.stack).1 i).usage n
        = (r.tree.usage n).add n (.refer id access exported) := by
      rw [usage, symbols_settle, ← usage_locate r.tree id.name r.stack n]
      refine usage_modifySymbol (lt_size_of_home? hx) ?_ ?_ n
      · rintro _ ⟨⟩
        exact hid
      · exact usage_noteAccess hid access crossed exported
    simp only [step, heq]
    cases exported with
    | false => exact hsettle
    | true => exact (usage_markExported _ i n).trans hsettle

theorem Ready.usage_run {events : List ScopeEvent} (hr : r.Ready events)
    (hlabel : r.Labelled events)
    (hdeclared : ∀ a ∈ sites r.spot events, ∀ i kind, a.Declares i kind →
      ∃ x, r.tree.home? i = some x) (n : Nat) :
    (events.foldl Referring.step r).tree.usage n
      = events.foldl (Usage.add · n) (r.tree.usage n) := by
  induction events generalizing r with
  | nil => rfl
  | cons e rest ih =>
    obtain ⟨hr₁, hgrows⟩ := hr.step
    have hfirst := usage_step hr.inv hlabel.1
      (fun a ha => hdeclared a (List.mem_append_left _ ha)) n
    have hrest : ∀ a ∈ sites (r.step e).spot rest, ∀ i kind, a.Declares i kind →
        ∃ x, (r.step e).tree.home? i = some x := by
      intro a ha i kind hi
      rw [spot_step] at ha
      obtain ⟨x, hx⟩ := hdeclared a (List.mem_append_right _ ha) i kind hi
      exact ⟨x, hgrows.home i x hx⟩
    rw [List.foldl_cons, List.foldl_cons, ← hfirst]
    exact ih hr₁ hlabel.2 hrest

end Referring

/-- The symbols of a resolved program have noted where its events read them, in order,
and how many of its events write to them. -/
theorem usage_of_run {ie8 : Bool} {q : Program} {t : ScopeTree} {d : Declaring}
    (hrun : (q.innerEvents ie8).foldlM (Declaring.step q.fileName) q.declaring = .ok d)
    (ht : t = ((q.innerEvents ie8).foldl Referring.step d.referring).tree.pin)
    (hlabel : d.referring.Labelled (q.innerEvents ie8))
    (hdeclares : Declares (q.innerEvents ie8) d.symbols.toList) {s : Symbol}
    (hs : t.symbols[n]? = some s) :
    s.references = (q.innerEvents ie8).filterMap (·.readOf? n)
      ∧ s.assignments = (q.innerEvents ie8).countP (·.writes n) := by
  have hready := Declaring.ready_referring hrun
  obtain ⟨hfinal, _⟩ := hready.run
  have hsymbols := (pin_spec hfinal.resolved.hangs).1.symbols
  have hheld : ∀ a ∈ q.sites ie8, ∀ i kind, a.Declares i kind → ∃ x, d.tree.home? i = some x := by
    intro a ha i kind hi
    obtain ⟨x, hx, _⟩ := (holds_of_run hrun hdeclares a ha).2 i kind hi
    exact ⟨x, hx⟩
  have hstart : d.tree.usage n = {} := Declaring.usage_run hrun n
  have hend := hready.usage_run hlabel hheld n
  have husage : t.usage n = s.usage := by
    rw [usage, hs]
    rfl
  rw [show d.referring.tree.usage n = {} from hstart, Usage.foldl_add, usage, ← hsymbols, ← ht,
    ← usage, husage] at hend
  obtain ⟨hreads, hwrites⟩ := Usage.mk.inj hend
  exact ⟨hreads, by simpa using hwrites⟩

end Laconic
