import Laconic.Proofs.Scope.Chain

/-!
# Declaring names

What the run that declares names knows at each moment.  A declaration either
stands in the present scope or is hoisted: it passes the blocks around it on the
way to its function.  Both ways are one rule (`declare?_eq`): the declaration is
refused, is a new symbol, or declares an old symbol again.
-/

namespace Laconic

/-- A result of which something can be computed. -/
theorem exists_ok_of_any {ε α : Type} {x : Except ε α} {f : α → Bool}
    (h : x.toOption.any f = true) : ∃ a, x = .ok a ∧ f a = true := by
  cases x with
  | error e => cases h
  | ok a => exact ⟨a, rfl, h⟩

open ScopeTree ScopeEvent

namespace Declaring

variable {d d' : Declaring} {e : ScopeEvent} {fileName : Span → String} {fresh : Bool} {i : Nat}
  {kind : BindingKind} {loc : Span} {name : String} {rest : List ScopeEvent} {α : Type}

/-! ## One rule for all declarations -/

def passed (d : Declaring) (kind : BindingKind) : List Nat :=
  if d.isHoisted kind then d.stack.takeWhile fun id => !d.tree.isVarScope id else []

/-- The scope that a declaration comes to stand in. -/
def target (d : Declaring) (kind : BindingKind) : Nat :=
  if d.isHoisted kind then
    (d.stack.find? d.tree.isVarScope).getD (d.stack.getLastD root)
  else d.current

/-- What becomes of a declaration where the name is declared already. -/
inductive Verdict where
  /-- The old declaration gives way. -/
  | new
  /-- Both declare one symbol. -/
  | again
  | refused

/-- What becomes of a declaration where the name is declared already. -/
def verdict (hoisted : Bool) (kind old : BindingKind) : Verdict :=
  if old.isShadowable then .new
  else if hoisted then if old.isLexical then .refused else .again
  else if (old == .param && kind == .param) || (!old.isLexical && !kind.isLexical && old == kind)
    then .again
  else .refused

/-- Whether a name that is declared in a block and one that is hoisted past the
block stand in each other's way. -/
def collides (d : Declaring) (name : String) (kind : BindingKind) : Bool :=
  (d.passed kind).any (d.blocks name)
    || (!d.isHoisted kind && kind.isLexical
      && d.hoisted[d.target kind]?.any (·.contains name))

/-- The names that are hoisted past each scope, after one more declaration. -/
def hoistedBy (d : Declaring) (name : String) (kind : BindingKind) : Array (List String) :=
  (d.passed kind).foldl (fun h id => h.modify id (name :: ·)) d.hoisted

/-- The symbol that the scope of a declaration has under its name, with its
kind. -/
def old? (d : Declaring) (name : String) (kind : BindingKind) : Option (Nat × BindingKind) :=
  (d.tree.declared? name (d.target kind)).bind fun i => d.tree.symbols[i]?.map fun s => (i, s.kind)

def asNew (d : Declaring) (name : String) (kind : BindingKind) (loc : Span) : Declaring × Nat :=
  ({ d with hoisted := d.hoistedBy name kind
            tree := (d.tree.addSymbol name kind (d.target kind) loc).1 }, d.tree.symbols.size)

/-- The tree after one more declaration of a symbol.  A function takes the place
of a variable. -/
def retree (t : ScopeTree) (symbol : Nat) (old kind : BindingKind) (loc : Span) : ScopeTree :=
  if kind == .function && old == .var then
    (t.redeclare symbol loc).modifySymbol symbol fun s => { s with kind := .function }
  else t.redeclare symbol loc

/-- What a view of symbols shows does not depend on how often they are declared,
unless it shows just that. -/
theorem map_getElem?_retree (t : ScopeTree) (symbol : Nat) (old kind : BindingKind) (loc : Span)
    (view : Symbol → α)
    (hview : ∀ (s : Symbol) (declarations : List Span) (kind : BindingKind),
      view { s with declarations, kind } = view s) (j : Nat) :
    (retree t symbol old kind loc).symbols[j]?.map view = t.symbols[j]?.map view := by
  have hredeclare : (t.redeclare symbol loc).symbols[j]?.map view = t.symbols[j]?.map view :=
    map_getElem?_modifySymbol t symbol _ view (fun s => hview s _ s.kind) j
  unfold retree
  split
  · rw [← hredeclare]
    exact map_getElem?_modifySymbol (t.redeclare symbol loc) symbol _ view
      (fun s => hview s s.declarations .function) j
  · exact hredeclare

def asAgain (d : Declaring) (name : String) (kind : BindingKind) (loc : Span) (symbol : Nat)
    (old : BindingKind) : Declaring × Nat :=
  ({ d with hoisted := d.hoistedBy name kind, tree := retree d.tree symbol old kind loc }, symbol)

/-- What becomes of a declaration, given the symbol in its place. -/
def decide? (d : Declaring) (name : String) (kind : BindingKind) (loc : Span) :
    Option (Nat × BindingKind) → Option (Declaring × Nat)
  | none => some (d.asNew name kind loc)
  | some (symbol, old) =>
    match verdict (d.isHoisted kind) kind old with
    | .new => some (d.asNew name kind loc)
    | .again => some (d.asAgain name kind loc symbol old)
    | .refused => none

private theorem isLexical_of_isShadowable {k : BindingKind} (h : k.isShadowable = true) :
    k.isLexical = false := by
  cases k <;> simp_all [BindingKind.isShadowable, BindingKind.isLexical]

section

variable (d : Declaring) (name : String) (kind : BindingKind) (loc : Span)

private theorem declareVar_eq (h : d.isHoisted kind = true) :
    d.declareVar name kind loc
      = if d.collides name kind then none else d.decide? name kind loc (d.old? name kind) := by
  have hpassed : d.passed kind = d.stack.takeWhile fun id => !d.tree.isVarScope id := by
    simp [passed, h]
  have htarget : d.target kind
      = (d.stack.find? d.tree.isVarScope).getD (d.stack.getLastD root) := by
    simp [target, h]
  unfold declareVar collides old?
  simp only [← hpassed, ← htarget, h, Bool.not_true, Bool.false_and, Bool.or_false]
  split
  · rfl
  · simp only [declaredKind?]
    cases hd : d.tree.declared? name (d.target kind) with
    | none => simp [decide?, asNew, hoistedBy]
    | some i =>
      cases hs : d.tree.symbols[i]? with
      | none => simp [decide?, hs, asNew, hoistedBy]
      | some s =>
        simp only [Option.bind_some, hs, Option.map_some, decide?, verdict, h]
        cases hshadow : s.kind.isShadowable with
        | true =>
          have hlex := isLexical_of_isShadowable hshadow
          simp [hlex, asNew, hoistedBy]
        | false =>
          cases hlex : s.kind.isLexical with
          | true => simp
          | false => simp [asAgain, hoistedBy, retree]

private theorem declareLexical_eq (h : d.isHoisted kind = false) : d.declareLexical name kind loc
      = if d.collides name kind then none else d.decide? name kind loc (d.old? name kind) := by
  have hpassed : d.passed kind = [] := by simp [passed, h]
  have htarget : d.target kind = d.current := by simp [target, h]
  have hhoisted : d.hoistedBy name kind = d.hoisted := by simp [hoistedBy, hpassed]
  unfold declareLexical collides old?
  simp only [hpassed, htarget, h, List.any_nil, Bool.false_or, Bool.not_false, Bool.true_and]
  split
  · rfl
  · simp only [declaredKind?]
    cases hd : d.tree.declared? name d.current with
    | none => simp [decide?, asNew, hhoisted, htarget]
    | some i =>
      cases hs : d.tree.symbols[i]? with
      | none => simp [decide?, hs, asNew, hhoisted, htarget]
      | some s =>
        simp only [Option.bind_some, hs, Option.map_some, decide?, verdict, h]
        cases hshadow : s.kind.isShadowable with
        | true => simp [asNew, hhoisted, htarget]
        | false =>
          simp only [Bool.false_eq_true, ↓reduceIte]
          split
          · next hagain =>
            have hsame : (kind == BindingKind.function && s.kind == BindingKind.var) = false := by
              simp only [Bool.or_eq_true, Bool.and_eq_true, beq_iff_eq] at hagain
              rcases hagain with ⟨hparam, _⟩ | ⟨_, heq⟩
              · simp [hparam]
              · rw [heq]
                cases kind <;> rfl
            simp [asAgain, hhoisted, retree, hsame]
          · rfl

/-- One rule for all declarations: a name that collides with a hoisted one is
refused; otherwise the symbol that is declared in the same place already decides. -/
theorem declare?_eq : d.declare? name kind loc
      = if d.collides name kind then none else d.decide? name kind loc (d.old? name kind) := by
  unfold declare?
  split
  · next h => exact declareVar_eq d name kind loc h
  · next h => exact declareLexical_eq d name kind loc (by simpa using h)

end

/-! ## What a declaration does -/

/-- A declaration that succeeds is that of a new symbol, or declares the symbol in
its place again. -/
theorem declare?_cases (h : d.declare? name kind loc = some (d', i)) :
    d.collides name kind = false ∧
      ((∀ j old, d.old? name kind = some (j, old) → old.isShadowable = true)
          ∧ (d', i) = d.asNew name kind loc
        ∨ ∃ old, d.old? name kind = some (i, old) ∧ old.isShadowable = false
          ∧ verdict (d.isHoisted kind) kind old = .again
          ∧ (d', i) = d.asAgain name kind loc i old) := by
  rw [declare?_eq] at h
  split at h
  · cases h
  · next hcollides =>
    refine ⟨by simpa using hcollides, ?_⟩
    cases hold : d.old? name kind with
    | none =>
      rw [hold] at h
      refine .inl ⟨by simp, ?_⟩
      simpa [decide?] using h.symm
    | some found =>
      obtain ⟨j, old⟩ := found
      rw [hold] at h
      simp only [decide?] at h
      split at h
      · next hverdict =>
        refine .inl ⟨?_, by simpa using h.symm⟩
        intro j' old' heq
        simp only [Option.some.injEq, Prod.mk.injEq] at heq
        rw [← heq.2]
        unfold verdict at hverdict
        split at hverdict
        · next hshadow => exact hshadow
        · split at hverdict <;> split at hverdict <;> cases hverdict
      · next hverdict =>
        have hagain := Option.some.inj h
        have hi : j = i := congrArg Prod.snd hagain
        subst hi
        refine .inr ⟨old, rfl, ?_, hverdict, hagain.symm⟩
        cases hshadow : old.isShadowable with
        | false => rfl
        | true => simp [verdict, hshadow] at hverdict
      · cases h

/-! ## Scopes that begin -/

def newScope (d : Declaring) (kind : ScopeKind) (loc : Span) (strict : Bool) : Scope :=
  { kind, loc
    parent := d.stack.head?
    strict := strict || (d.stack.head?.bind (d.tree.scopes[·]?)).any (·.strict)
    children := []
    names := []
    enclosed := []
    usesEval := false
    usesWith := kind == .with
    usesArguments := false
    usesThis := false
    pinned := false }

/-- What a view shows after a scope has begun, unless it shows the scopes inside
a scope. -/
theorem map_getElem?_enter (d : Declaring) (kind : ScopeKind) (loc : Span) (strict : Bool)
    (view : Scope → α)
    (hview : ∀ (s : Scope) (children : List Nat), view { s with children } = view s) (id : Nat) :
    (d.enter kind loc strict).tree.scopes[id]?.map view
      = if id = d.tree.scopes.size then some (view (d.newScope kind loc strict))
        else d.tree.scopes[id]?.map view := by
  have hpush : (d.tree.scopes.push (d.newScope kind loc strict))[id]?.map view
      = if id = d.tree.scopes.size then some (view (d.newScope kind loc strict))
        else d.tree.scopes[id]?.map view := by
    rw [Array.getElem?_push]
    split <;> rfl
  rw [← hpush]
  unfold enter newScope
  cases d.stack.head? with
  | none => rfl
  | some parent => exact map_getElem?_modifyScope _ parent _ view (fun s => hview s _) id

section

variable (d : Declaring) (kind : ScopeKind) (loc : Span) (strict : Bool)

@[simp] theorem symbols_enter : (d.enter kind loc strict).tree.symbols = d.tree.symbols := by
  unfold enter
  cases d.stack.head? <;> rfl

@[simp] theorem globals_enter : (d.enter kind loc strict).tree.globals = d.tree.globals := by
  unfold enter
  cases d.stack.head? <;> rfl

@[simp] theorem size_scopes_enter :
    (d.enter kind loc strict).tree.scopes.size = d.tree.scopes.size + 1 := by
  unfold enter
  cases d.stack.head? with
  | none => simp
  | some parent => simp [modifyScope]

@[simp] theorem stack_enter : (d.enter kind loc strict).stack = d.tree.scopes.size :: d.stack := rfl

theorem frame?_enter (id : Nat) : (d.enter kind loc strict).tree.frame? id
      = if id = d.tree.scopes.size then some (d.newScope kind loc strict).frame
        else d.tree.frame? id :=
  d.map_getElem?_enter kind loc strict Scope.frame (fun _ _ => rfl) id

theorem extends_enter : d.tree.Extends (d.enter kind loc strict).tree := by
  intro id f hf
  rw [frame?_enter]
  obtain ⟨s, hs, _⟩ := Option.map_eq_some_iff.mp hf
  have hlt := (Array.getElem?_eq_some_iff.mp hs).1
  rw [if_neg (by omega)]
  exact hf

theorem declared?_enter (name : String) (id : Nat) :
    (d.enter kind loc strict).tree.declared? name id = d.tree.declared? name id := by
  simp only [declared?_eq_find?, namesOf]
  rw [d.map_getElem?_enter kind loc strict Scope.names (fun _ _ => rfl)]
  split
  · next h => simp [h, newScope]
  · rfl

end

/-- What the run that declares names knows after some events.  `fresh` says that
a scope has just begun. -/
structure Inv (fresh : Bool) (d : Declaring) : Prop where
  tabled : d.tree.Tabled
  chain : d.tree.Chain d.stack
  hangs : d.tree.Hangs
  symbol : ∀ (i : Nat) (s : Symbol), d.tree.symbols[i]? = some s →
    s.scope < d.tree.scopes.size ∧ s.undeclared = false ∧ s.kind ≠ .global ∧ s.kind ≠ .arguments
  enclosed : ∀ (id : Nat) (s : Scope), d.tree.scopes[id]? = some s → s.enclosed = []
  globals : d.tree.globals = []
  /-- What gives way to other declarations comes first in its scope. -/
  first : ∀ (i j : Nat) (s u : Symbol), d.tree.symbols[i]? = some s → d.tree.symbols[j]? = some u →
    s.kind.isShadowable = true → u.scope = s.scope → i ≤ j
  bare : fresh = true → ∀ (i : Nat) (s : Symbol), d.tree.symbols[i]? = some s → s.scope ≠ d.current
  /-- Every symbol is that of some declaration. -/
  declared : ∀ i < d.tree.symbols.size, i ∈ d.symbols
  hoisted : d.hoisted.size = d.tree.scopes.size

namespace Inv

variable {fresh : Bool} {d : Declaring}

theorem enter (h : d.Inv fresh) (kind : ScopeKind) (loc : Span) (strict : Bool) :
    (d.enter kind loc strict).Inv true where
  tabled := by
    refine ⟨?_, ?_⟩
    · intro scope name i
      rw [declared?_enter, h.tabled.last]
      simp only [ScopeTree.Declares, symbols_enter]
    · intro id s hs
      have hnames := d.map_getElem?_enter kind loc strict Scope.names (fun _ _ => rfl) id
      rw [hs] at hnames
      split at hnames
      · have : s.names = [] := Option.some.inj hnames
        simp [this]
      · obtain ⟨s', hs', heq⟩ := Option.map_eq_some_iff.mp hnames.symm
        exact heq ▸ h.tabled.nodup id s' hs'
  chain := by
    have hchain := h.chain.mono (d.extends_enter kind loc strict)
    have hne := h.chain.ne_nil
    obtain ⟨parent, rest, hstack⟩ := List.exists_cons_of_ne_nil hne
    rw [stack_enter]
    rw [hstack] at hchain ⊢
    refine .inner (by rw [frame?_enter, if_pos rfl]) ?_ ?_ hchain
    · simp [newScope, Scope.frame, hstack]
    · exact h.chain.lt_size parent (by simp [hstack])
  hangs := by
    intro id f hf
    rw [frame?_enter] at hf
    split at hf
    · next hid =>
      obtain ⟨parent, rest, hstack⟩ := List.exists_cons_of_ne_nil h.chain.ne_nil
      refine .inr ⟨parent, ?_, ?_⟩
      · rw [hid]
        exact h.chain.lt_size parent (by simp [hstack])
      · simp only [Option.some.injEq] at hf
        simp [← hf, newScope, Scope.frame, hstack]
    · exact h.hangs id f hf
  symbol := by
    intro i s hs
    rw [symbols_enter] at hs
    obtain ⟨hscope, hrest⟩ := h.symbol i s hs
    exact ⟨by rw [size_scopes_enter]; omega, hrest⟩
  enclosed := by
    intro id s hs
    have henclosed := d.map_getElem?_enter kind loc strict Scope.enclosed (fun _ _ => rfl) id
    rw [hs] at henclosed
    split at henclosed
    · exact Option.some.inj henclosed
    · obtain ⟨s', hs', heq⟩ := Option.map_eq_some_iff.mp henclosed.symm
      exact heq ▸ h.enclosed id s' hs'
  globals := by rw [globals_enter, h.globals]
  first := by
    rw [symbols_enter]
    exact h.first
  bare := by
    intro _ i s hs
    rw [symbols_enter] at hs
    have hlt := (h.symbol i s hs).1
    simp only [current, stack_enter, List.headD_cons]
    omega
  declared := by
    rw [symbols_enter]
    exact h.declared
  hoisted := by
    rw [size_scopes_enter, ← h.hoisted]
    exact Array.size_push _

theorem leave (h : d.Inv fresh) (hdepth : 1 < d.stack.length) : d.leave.Inv false where
  tabled := h.tabled
  chain := by
    obtain ⟨id, rest, hstack⟩ := List.exists_cons_of_ne_nil h.chain.ne_nil
    have hchain := h.chain
    simp only [Declaring.leave, hstack, List.tail_cons]
    rw [hstack] at hchain hdepth
    refine hchain.tail ?_
    rintro rfl
    simp at hdepth
  hangs := h.hangs
  symbol := h.symbol
  enclosed := h.enclosed
  globals := h.globals
  first := h.first
  bare := by simp
  declared := h.declared
  hoisted := h.hoisted

theorem weaken (h : d.Inv fresh) : d.Inv false :=
  { h with bare := by simp }

theorem modifySymbol (h : d.Inv fresh) (id : Nat) (f : Symbol → Symbol)
    (hf : ∀ s, (f s).scope = s.scope ∧ (f s).name = s.name ∧ (f s).undeclared = s.undeclared)
    (hkind : ∀ s, (f s).kind = s.kind ∨ (f s).kind = .function) :
    { d with tree := d.tree.modifySymbol id f }.Inv fresh := by
  have hback : ∀ (i : Nat) (s : Symbol), (d.tree.modifySymbol id f).symbols[i]? = some s →
      ∃ s', d.tree.symbols[i]? = some s' ∧ s.scope = s'.scope ∧ s.undeclared = s'.undeclared
        ∧ (s.kind = s'.kind ∨ s.kind = .function) := by
    intro i s hs
    rw [getElem?_symbols_modifySymbol] at hs
    split at hs
    · obtain ⟨s', hs', rfl⟩ := Option.map_eq_some_iff.mp hs
      exact ⟨s', hs', (hf s').1, (hf s').2.2, hkind s'⟩
    · exact ⟨s, hs, rfl, rfl, .inl rfl⟩
  exact {
    tabled := by
      refine h.tabled.of_same ⟨fun _ => rfl, ?_⟩
      intro i
      apply map_getElem?_modifySymbol
      intro s
      obtain ⟨h1, h2, h3⟩ := hf s
      simp only [h1, h2, h3]
    chain := h.chain.mono (extends_modifySymbol d.tree id f)
    hangs := h.hangs
    symbol := by
      intro i s hs
      obtain ⟨s', hs', hscope, hund, hk⟩ := hback i s hs
      obtain ⟨h1, h2, h3, h4⟩ := h.symbol i s' hs'
      refine ⟨hscope ▸ h1, hund ▸ h2, ?_, ?_⟩
      · rcases hk with hk | hk <;> rw [hk]
        · exact h3
        · simp
      · rcases hk with hk | hk <;> rw [hk]
        · exact h4
        · simp
    enclosed := h.enclosed
    globals := h.globals
    first := by
      intro i j s u hs hu hshadow hscope
      obtain ⟨s', hs', hscope', _, hk⟩ := hback i s hs
      obtain ⟨u', hu', huscope, _, _⟩ := hback j u hu
      refine h.first i j s' u' hs' hu' ?_ (by rw [← huscope, ← hscope', hscope])
      rcases hk with hk | hk
      · exact hk ▸ hshadow
      · simp [hk, BindingKind.isShadowable] at hshadow
    bare := by
      intro hfresh i s hs
      obtain ⟨s', hs', hscope, _⟩ := hback i s hs
      rw [hscope]
      exact h.bare hfresh i s' hs'
    declared := by
      rw [size_symbols_modifySymbol]
      exact h.declared
    hoisted := h.hoisted }

theorem target_mem (h : d.Inv fresh) (kind : BindingKind) : d.target kind ∈ d.stack := by
  obtain ⟨id, rest, hstack⟩ := List.exists_cons_of_ne_nil h.chain.ne_nil
  unfold target
  split
  · cases hfind : d.stack.find? d.tree.isVarScope with
    | some found => exact List.mem_of_find?_eq_some hfind
    | none =>
      rw [Option.getD_none, hstack, List.getLastD_cons]
      cases rest with
      | nil => simp
      | cons next rest =>
        rw [List.getLastD_cons]
        exact List.mem_cons_of_mem _ (List.getLastD_mem_cons)
  · simp [current, hstack]

theorem target_lt (h : d.Inv fresh) (kind : BindingKind) : d.target kind < d.tree.scopes.size :=
  h.chain.lt_size _ (h.target_mem kind)

theorem size_hoistedBy (d : Declaring) (name : String) (kind : BindingKind) :
    (d.hoistedBy name kind).size = d.hoisted.size := by
  unfold hoistedBy
  generalize d.hoisted = start
  induction d.passed kind generalizing start with
  | nil => rfl
  | cons id rest ih => rw [List.foldl_cons, ih, Array.size_modify]

theorem target_of_isShadowable (d : Declaring) (h : kind.isShadowable = true) :
    d.target kind = d.current := by
  have hnot : d.isHoisted kind = false := by
    cases kind <;> simp_all [BindingKind.isShadowable, isHoisted]
  simp [target, hnot]

theorem asNew (h : d.Inv fresh) (name : String) (loc : Span)
    (hglobal : kind ≠ .global) (harguments : kind ≠ .arguments)
    (hshadowable : kind.isShadowable = true → fresh = true) :
    { (d.asNew name kind loc).1 with symbols := d.symbols.push d.tree.symbols.size }.Inv false := by
  have hlt := h.target_lt kind
  have hback : ∀ (i : Nat) (s : Symbol),
      (d.tree.addSymbol name kind (d.target kind) loc).1.symbols[i]? = some s →
      d.tree.symbols[i]? = some s
        ∨ i = d.tree.symbols.size ∧ s = newSymbol name kind (d.target kind) loc := by
    intro i s hs
    rw [symbols_addSymbol, Array.getElem?_push] at hs
    split at hs
    · next hi => exact .inr ⟨hi, (Option.some.inj hs).symm⟩
    · exact .inl hs
  exact {
    tabled := h.tabled.addSymbol name hglobal hlt loc
    chain := by
      refine h.chain.mono (ScopeTree.Extends.of_eq ?_)
      exact map_getElem?_addSymbol d.tree name kind _ loc Scope.frame fun _ _ => rfl
    hangs := by
      intro id f hf
      refine h.hangs id f ?_
      rw [← hf]
      exact (map_getElem?_addSymbol d.tree name kind _ loc Scope.frame
        (fun _ _ => rfl) id).symm
    symbol := by
      intro i s hs
      rcases hback i s hs with hs | ⟨_, rfl⟩
      · obtain ⟨hscope, hrest⟩ := h.symbol i s hs
        exact ⟨by simpa [Declaring.asNew] using hscope, hrest⟩
      · refine ⟨by simpa [Declaring.asNew, newSymbol] using hlt, ?_, hglobal, harguments⟩
        simpa [newSymbol] using hglobal
    enclosed := by
      intro id s hs
      have hview := map_getElem?_addSymbol d.tree name kind (d.target kind) loc
        Scope.enclosed (fun _ _ => rfl) id
      rw [show (d.tree.addSymbol name kind (d.target kind) loc).1.scopes[id]? = some s from hs]
        at hview
      obtain ⟨s', hs', heq⟩ := Option.map_eq_some_iff.mp hview.symm
      exact heq ▸ h.enclosed id s' hs'
    globals := by simp [Declaring.asNew, h.globals]
    first := by
      intro i j s u hs hu hshadow hscope
      rcases hback i s hs with hs | ⟨rfl, rfl⟩
      · rcases hback j u hu with hu | ⟨rfl, _⟩
        · exact h.first i j s u hs hu hshadow hscope
        · exact Nat.le_of_lt (Array.getElem?_eq_some_iff.mp hs).1
      · rcases hback j u hu with hu | ⟨rfl, _⟩
        · have hbare := h.bare (hshadowable hshadow) j u hu
          exact absurd (hscope.trans (target_of_isShadowable d hshadow)) hbare
        · exact Nat.le_refl _
    bare := by simp
    declared := by
      intro i hi
      rw [Array.mem_push]
      simp only [Declaring.asNew, symbols_addSymbol, Array.size_push] at hi
      by_cases heq : i = d.tree.symbols.size
      · exact .inr heq
      · exact .inl (h.declared i (by omega))
    hoisted := by
      simp only [Declaring.asNew, size_hoistedBy, size_scopes_addSymbol]
      exact h.hoisted }

theorem asAgain (h : d.Inv fresh) (name : String) (kind : BindingKind) (loc : Span) (i : Nat)
    (old : BindingKind) :
    { (d.asAgain name kind loc i old).1 with symbols := d.symbols.push i }.Inv false := by
  have htree : { d with tree := retree d.tree i old kind loc }.Inv fresh := by
    have hredeclare : { d with tree := d.tree.redeclare i loc }.Inv fresh :=
      h.modifySymbol i _ (fun _ => ⟨rfl, rfl, rfl⟩) (fun _ => .inl rfl)
    unfold retree
    split
    · exact hredeclare.modifySymbol i _ (fun _ => ⟨rfl, rfl, rfl⟩) (fun _ => .inr rfl)
    · exact hredeclare
  exact {
    htree.weaken with
    declared := fun j hj => Array.mem_push.mpr (.inl (htree.declared j hj))
    hoisted := by
      rw [show (d.asAgain name kind loc i old).1.hoisted = d.hoistedBy name kind from rfl,
        size_hoistedBy]
      exact htree.hoisted }

end Inv

/-! ## Every event -/

/-- An event that can come next. -/
def Admits (d : Declaring) (fresh : Bool) : ScopeEvent → Prop
  | .leave => 1 < d.stack.length
  | .declare _ kind _ _ =>
    kind ≠ .global ∧ kind ≠ .arguments ∧ (kind.isShadowable = true → fresh = true)
  | _ => True

/-- Whether a scope has just begun after an event. -/
def opens : ScopeEvent → Bool
  | .enter .. => true
  | _ => false

theorem step_declare {id : Ident} {exported loop : Bool}
    (h : d.step fileName (.declare id kind exported loop) = .ok d') :
    ∃ d₁ i, d.declare? id.name kind id.loc = some (d₁, i) ∧
      d' = { d₁ with
        tree := if exported then d₁.tree.markExported i else d₁.tree
        symbols := d₁.symbols.push i } := by
  simp only [step] at h
  cases hd : d.declare? id.name kind id.loc with
  | none => simp [hd] at h
  | some found =>
    obtain ⟨d₁, i⟩ := found
    refine ⟨d₁, i, rfl, ?_⟩
    simpa [hd] using h.symm

theorem Inv.step (h : d.Inv fresh) (he : d.Admits fresh e) (hstep : d.step fileName e = .ok d') :
    d'.Inv (opens e) := by
  cases e with
  | enter kind loc strict =>
    cases hstep
    exact h.enter kind loc strict
  | leave =>
    cases hstep
    exact h.leave he
  | declare id kind exported loop =>
    obtain ⟨d₁, i, hd, rfl⟩ := step_declare hstep
    obtain ⟨hglobal, harguments, hshadowable⟩ := he
    have hnoted : { d₁ with symbols := d₁.symbols.push i }.Inv false := by
      obtain ⟨_, ⟨_, heq⟩ | ⟨old, _, _, _, heq⟩⟩ := declare?_cases hd
      · cases heq
        exact h.asNew id.name id.loc hglobal harguments hshadowable
      · cases heq
        exact h.asAgain id.name kind id.loc i old
    cases exported with
    | false => exact hnoted
    | true => exact hnoted.modifySymbol i _ (fun _ => ⟨rfl, rfl, rfl⟩) (fun _ => .inl rfl)
  | refer id access exported | this =>
    cases hstep
    exact h.weaken

theorem admits_of_fits (hfits : fits d.stack.length fresh (e :: rest) = true)
    (hstep : d.step fileName e = .ok d') :
    d.Admits fresh e ∧ fits d'.stack.length (opens e) rest = true := by
  cases e with
  | enter kind loc strict =>
    cases hstep
    exact ⟨trivial, by simpa [fits, opens] using hfits⟩
  | leave =>
    cases hstep
    simpa [fits, Admits, leave, opens] using hfits
  | declare id kind exported loop =>
    obtain ⟨d₁, i, hd, rfl⟩ := step_declare hstep
    have hstack : d₁.stack = d.stack := by
      obtain ⟨_, ⟨_, heq⟩ | ⟨old, _, _, _, heq⟩⟩ := declare?_cases hd <;> cases heq <;> rfl
    simp only [fits, Bool.and_eq_true, bne_iff_ne, ne_eq, Bool.or_eq_true,
      Bool.not_eq_true'] at hfits
    obtain ⟨⟨⟨hglobal, harguments⟩, hshadow⟩, hrest⟩ := hfits
    refine ⟨⟨hglobal, harguments, ?_⟩, by simpa [hstack, opens] using hrest⟩
    intro hshadowable
    rcases hshadow with hfresh | hnot
    · exact hfresh
    · simp [hnot] at hshadowable
  | refer id access exported | this =>
    cases hstep
    exact ⟨trivial, by simpa [fits, opens] using hfits⟩

/-! ## Whole runs -/

def spot (d : Declaring) : Spot := ⟨d.stack, d.tree.scopes.size⟩

/-- What a view of scopes shows does not depend on declarations, unless it shows names. -/
theorem map_getElem?_declare? (h : d.declare? name kind loc = some (d', i)) (view : Scope → α)
    (hview : ∀ (s : Scope) (names : NameTable), view { s with names } = view s) (id : Nat) :
    d'.tree.scopes[id]?.map view = d.tree.scopes[id]?.map view := by
  obtain ⟨_, ⟨_, heq⟩ | ⟨old, _, _, _, heq⟩⟩ := declare?_cases h
  · cases heq
    exact map_getElem?_addSymbol d.tree name kind _ loc view hview id
  · cases heq
    simp only [retree]
    split <;> rfl

theorem declare?_frame (h : d.declare? name kind loc = some (d', i)) :
    d'.stack = d.stack ∧ ∀ id, d'.tree.frame? id = d.tree.frame? id := by
  refine ⟨?_, map_getElem?_declare? h Scope.frame fun _ _ => rfl⟩
  obtain ⟨_, ⟨_, heq⟩ | ⟨old, _, _, _, heq⟩⟩ := declare?_cases h <;> cases heq <;> rfl

theorem spot_step (hstep : d.step fileName e = .ok d') :
    d'.spot = d.spot.step e ∧ d.tree.Extends d'.tree ∧ d'.tree.Begins d.spot e := by
  cases e with
  | enter kind loc strict =>
    cases hstep
    refine ⟨?_, d.extends_enter kind loc strict, ?_⟩
    · simp [spot, Spot.step]
    · refine ⟨_, by rw [spot, frame?_enter, if_pos rfl], rfl, rfl⟩
  | leave =>
    cases hstep
    exact ⟨rfl, .refl _, trivial⟩
  | declare id kind exported loop =>
    obtain ⟨d₁, i, hd, rfl⟩ := step_declare hstep
    obtain ⟨hstack, hframe⟩ := declare?_frame hd
    have hsize : d₁.tree.scopes.size = d.tree.scopes.size := by
      obtain ⟨_, ⟨_, heq⟩ | ⟨old, _, _, _, heq⟩⟩ := declare?_cases hd
      · cases heq
        simp
      · cases heq
        simp only [retree]
        split <;> rfl
    cases exported with
    | false => exact ⟨by simp [spot, hstack, hsize, Spot.step], .of_eq hframe, trivial⟩
    | true =>
      refine ⟨?_, ScopeTree.Extends.of_eq hframe, trivial⟩
      simp [spot, hstack, hsize, Spot.step, markExported]
  | refer id access exported | this =>
    cases hstep
    exact ⟨rfl, .refl _, trivial⟩

/-- The symbol of a declaration belongs to the scope that the declaration comes to
stand in. -/
theorem Inv.scope_declare? (h : d.Inv fresh) (hd : d.declare? name kind loc = some (d', i)) :
    ∃ s, d'.tree.symbols[i]? = some s ∧ s.scope = d.target kind ∧ s.name = name := by
  obtain ⟨_, ⟨_, heq⟩ | ⟨old, hold, _, _, heq⟩⟩ := declare?_cases hd
  · cases heq
    exact ⟨newSymbol name kind (d.target kind) loc, by simp, rfl, rfl⟩
  · cases heq
    obtain ⟨j, hj, hkind⟩ := Option.bind_eq_some_iff.mp hold
    obtain ⟨s, hs, hpair⟩ := Option.map_eq_some_iff.mp hkind
    simp only [Prod.mk.injEq] at hpair
    obtain ⟨rfl, rfl⟩ := hpair
    obtain ⟨s', hs', hscope, hname, _⟩ := h.tabled.declares hj
    have hview := map_getElem?_retree d.tree j s.kind kind loc (fun s => (s.scope, s.name))
      (fun _ _ _ => rfl) j
    rw [hs', Option.map_some] at hview
    obtain ⟨u, hu, heq⟩ := Option.map_eq_some_iff.mp hview
    simp only [Prod.mk.injEq] at heq
    exact ⟨u, hu, heq.1.trans hscope, heq.2.trans hname⟩

theorem exports_declare? (h : d.tree.Exports) (hd : d.declare? name kind loc = some (d', i)) :
    d'.tree.Exports := by
  obtain ⟨_, ⟨_, heq⟩ | ⟨old, _, _, _, heq⟩⟩ := declare?_cases hd
  · cases heq
    exact h.addSymbol name kind _ loc
  · cases heq
    exact h.of_same (map_getElem?_retree d.tree i old kind loc _ fun _ _ _ => rfl)

theorem Inv.exports_step (hinv : d.Inv fresh) (h : d.tree.Exports)
    (he : exportsOutermost d.stack.length (e :: rest) = true) (hstep : d.step fileName e = .ok d') :
    d'.tree.Exports ∧ exportsOutermost d'.stack.length rest = true := by
  cases e with
  | enter kind loc strict =>
    cases hstep
    exact ⟨h.of_same fun i => by rw [symbols_enter], he⟩
  | leave =>
    cases hstep
    refine ⟨h, ?_⟩
    simpa [exportsOutermost, Declaring.leave] using he
  | declare id kind exported loop =>
    obtain ⟨d₁, i, hd, rfl⟩ := step_declare hstep
    simp only [exportsOutermost, Bool.and_eq_true] at he
    obtain ⟨hstack, _⟩ := declare?_frame hd
    refine ⟨?_, by rw [hstack]; exact he.2⟩
    have h₁ := exports_declare? h hd
    cases exported with
    | false => exact h₁
    | true =>
      have hlength : d.stack.length = 1 := by simpa using he.1
      have hmem := hinv.target_mem kind
      rw [hinv.chain.eq_root_of_length hlength, List.mem_singleton] at hmem
      obtain ⟨s, hs, hscope, _⟩ := hinv.scope_declare? hd
      exact h₁.markExported hs (.inr (hscope.trans hmem))
  | refer id access exported =>
    cases hstep
    simp only [exportsOutermost, Bool.and_eq_true] at he
    exact ⟨h, he.2⟩
  | this =>
    cases hstep
    exact ⟨h, he⟩

theorem foldlM_cons_eq_ok (h : (e :: rest).foldlM (step fileName) d = .ok d') :
    ∃ d₁, d.step fileName e = .ok d₁ ∧ rest.foldlM (step fileName) d₁ = .ok d' := by
  rw [List.foldlM_cons] at h
  cases hstep : d.step fileName e with
  | error err =>
    rw [hstep] at h
    cases h
  | ok d₁ =>
    rw [hstep] at h
    exact ⟨d₁, rfl, h⟩

theorem spot_run {events : List ScopeEvent} (hrun : events.foldlM (step fileName) d = .ok d') :
    d'.spot = events.foldl Spot.step d.spot ∧ d.tree.Extends d'.tree
      ∧ d'.tree.Builds d.spot events := by
  induction events generalizing d with
  | nil =>
    cases hrun
    exact ⟨rfl, .refl _, trivial⟩
  | cons e rest ih =>
    obtain ⟨d₁, hstep, hrest⟩ := foldlM_cons_eq_ok hrun
    obtain ⟨hspot, hextends, hbegins⟩ := spot_step hstep
    obtain ⟨hspot', hextends', hbuilds⟩ := ih hrest
    refine ⟨?_, hextends.trans hextends', ?_, ?_⟩
    · rw [List.foldl_cons, ← hspot, hspot']
    · exact hbegins.mono hextends'
    · rw [← hspot]
      exact hbuilds

/-- A run through events that fit. -/
structure Course (fileName : Span → String) (fresh : Bool) (events : List ScopeEvent)
    (d d' : Declaring) : Prop where
  inv : d.Inv fresh
  fits : fits d.stack.length fresh events = true
  run : events.foldlM (Declaring.step fileName) d = .ok d'

namespace Course

variable {fileName : Span → String} {fresh : Bool} {events : List ScopeEvent} {d d' : Declaring}

theorem step (h : Course fileName fresh (e :: rest) d d') :
    ∃ d₁, d.step fileName e = .ok d₁ ∧ d.Admits fresh e ∧ Course fileName (opens e) rest d₁ d' := by
  obtain ⟨d₁, hstep, hrest⟩ := foldlM_cons_eq_ok h.run
  obtain ⟨hadmits, hfits⟩ := admits_of_fits h.fits hstep
  exact ⟨d₁, hstep, hadmits, h.inv.step hadmits hstep, hfits, hrest⟩

theorem inv_end (h : Course fileName fresh events d d') : d'.Inv false := by
  induction events generalizing d fresh with
  | nil =>
    cases h.run
    exact h.inv.weaken
  | cons e rest ih =>
    obtain ⟨d₁, _, _, h₁⟩ := h.step
    exact ih h₁

theorem exports (hd : Course fileName fresh events d d') (h : d.tree.Exports)
    (hexports : exportsOutermost d.stack.length events = true) : d'.tree.Exports := by
  induction events generalizing d fresh with
  | nil =>
    cases hd.run
    exact h
  | cons e rest ih =>
    obtain ⟨d₁, hstep, _, hd₁⟩ := hd.step
    obtain ⟨h₁, hexports'⟩ := hd.inv.exports_step h hexports hstep
    exact ih hd₁ h₁ hexports'

end Course

end Declaring

end Laconic
