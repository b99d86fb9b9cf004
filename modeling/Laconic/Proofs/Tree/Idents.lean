import Laconic.Scope.Resolve
import Laconic.Proofs.Tree.Walk

/-!
# The identifiers of a program

A program whose names are changed has the old events with the changed identifiers.
This holds of a change of every name by a function, of the numbers of symbols that
`bindIdents` gives out one by one, and of those that `bindDeclared` gives to the
declared names.
-/

namespace Laconic

open ScopeEvent

/-! ## Exchanges by a rule -/

namespace ScopeEvent

def withIdent (g : Ident → Ident) : ScopeEvent → ScopeEvent
  | .declare id kind exported loop => .declare (g id) kind exported loop
  | .refer id access exported => .refer (g id) access exported
  | e => e

theorem withIdent_of_ident? {e : ScopeEvent} (h : e.ident? = none) (g : Ident → Ident) :
    e.withIdent g = e := by
  cases e with
  | declare => cases h
  | refer => cases h
  | _ => rfl

end ScopeEvent

def Ident.bound (id : Ident) (symbol : Nat) : Ident := { id with symbol := some symbol }

def Ident.bindAll : List Ident → List Nat → List Ident
  | id :: ids, symbol :: symbols => id.bound symbol :: bindAll ids symbols
  | ids, _ => ids

/-- Identifiers of which some are bound to symbols, one after the other. -/
def Ident.bindSome : List Ident → List (Option Nat) → List Ident
  | id :: ids, some symbol :: symbols => id.bound symbol :: bindSome ids symbols
  | id :: ids, none :: symbols => id :: bindSome ids symbols
  | ids, _ => ids

/-- Events whose identifiers are bound to symbols, one after the other. -/
def ScopeEvent.label : List ScopeEvent → List Nat → List ScopeEvent
  | [], _ => []
  | .declare id kind exported loop :: es, symbol :: symbols =>
    .declare (id.bound symbol) kind exported loop :: label es symbols
  | .refer id access exported :: es, symbol :: symbols =>
    .refer (id.bound symbol) access exported :: label es symbols
  | e :: es, symbols => e :: label es symbols

/-- Events whose declared identifiers are bound to symbols, one after the other. -/
def ScopeEvent.labelDeclared : List ScopeEvent → List Nat → List ScopeEvent
  | [], _ => []
  | .declare id kind exported loop :: es, symbol :: symbols =>
    .declare (id.bound symbol) kind exported loop :: labelDeclared es symbols
  | e :: es, symbols => e :: labelDeclared es symbols

theorem Ident.bindAll_nil (ids : List Ident) : bindAll ids [] = ids := by
  cases ids <;> rfl

theorem Ident.bindSome_nil (ids : List Ident) : bindSome ids [] = ids := by
  cases ids <;> rfl

theorem Ident.length_bindAll (ids : List Ident) (symbols : List Nat) :
    (bindAll ids symbols).length = ids.length := by
  induction ids generalizing symbols with
  | nil => cases symbols <;> rfl
  | cons id ids ih =>
    cases symbols with
    | nil => rfl
    | cons symbol symbols => simp [bindAll, ih]

theorem Ident.length_bindSome (ids : List Ident) (symbols : List (Option Nat)) :
    (bindSome ids symbols).length = ids.length := by
  induction ids generalizing symbols with
  | nil => cases symbols <;> rfl
  | cons id ids ih =>
    cases symbols with
    | nil => rfl
    | cons symbol symbols => cases symbol <;> simp [bindSome, ih]

theorem Ident.map_symbol_bindAll {ids : List Ident} {symbols : List Nat}
    (h : ids.length = symbols.length) :
    (bindAll ids symbols).map (·.symbol) = symbols.map some := by
  induction ids generalizing symbols with
  | nil =>
    cases symbols with
    | nil => rfl
    | cons symbol symbols => cases h
  | cons id ids ih =>
    cases symbols with
    | nil => cases h
    | cons symbol symbols =>
      have hlength : ids.length = symbols.length := by simpa using h
      simp [bindAll, ih hlength, Ident.bound]

/-- Symbols for all names leave nothing of the old ones. -/
theorem Ident.bindAll_bindSome {ids : List Ident} {symbols : List Nat}
    (h : symbols.length = ids.length) (some : List (Option Nat)) :
    bindAll (bindSome ids some) symbols = bindAll ids symbols := by
  induction ids generalizing symbols some with
  | nil => cases some <;> rfl
  | cons id ids ih =>
    cases symbols with
    | nil => cases h
    | cons symbol symbols =>
      have hrest := ih (Nat.succ.inj h)
      rcases some with _ | ⟨_ | first, some⟩
      · rfl
      · exact congrArg (id.bound symbol :: ·) (hrest some)
      · exact congrArg (id.bound symbol :: ·) (hrest some)

namespace Refill

variable {news : List Ident} {es es' : List ScopeEvent}

theorem eq_map {g : Ident → Ident} (h : Refill ((idents es).map g) es es') :
    es' = es.map (withIdent g) := by
  generalize hnews : (idents es).map g = news at h
  induction h with
  | nil => rfl
  | plain he _ ih =>
    rw [idents, List.filterMap_cons_none he] at hnews
    rw [List.map_cons, withIdent_of_ident? he, ← ih hnews]
  | declare id new kind exported loop _ ih | refer id new access exported _ ih =>
    obtain ⟨rfl, hrest⟩ := List.cons.inj hnews
    rw [List.map_cons, ← ih hrest]
    rfl

theorem eq_label {symbols : List Nat} (h : Refill (Ident.bindAll (idents es) symbols) es es') :
    es' = label es symbols := by
  generalize hnews : Ident.bindAll (idents es) symbols = news at h
  induction h generalizing symbols with
  | nil => rfl
  | @plain e he _ _ es _ ih =>
    rw [idents, List.filterMap_cons_none he] at hnews
    rw [ih hnews]
    cases e with
    | declare => cases he
    | refer => cases he
    | _ => rfl
  | declare id new kind exported loop _ ih | refer id new access exported _ ih =>
    cases symbols with
    | nil =>
      obtain ⟨rfl, hrest⟩ := List.cons.inj hnews
      rw [ih ((Ident.bindAll_nil _).trans hrest)]
      rfl
    | cons symbol symbols =>
      obtain ⟨rfl, hrest⟩ := List.cons.inj hnews
      rw [ih hrest]
      rfl

theorem eq_labelDeclared {symbols : List Nat}
    (h : Refill (Ident.bindSome (idents es) (declaredSymbols es symbols)) es es') :
    es' = labelDeclared es symbols := by
  generalize hnews : Ident.bindSome (idents es) (declaredSymbols es symbols) = news at h
  induction h generalizing symbols with
  | nil => rfl
  | @plain e he _ es _ _ ih =>
    rw [idents, List.filterMap_cons_none he] at hnews
    cases e with
    | declare => cases he
    | refer => cases he
    | _ => exact congrArg (_ :: ·) (ih hnews)
  | declare id new kind exported loop _ ih =>
    cases symbols with
    | nil =>
      obtain ⟨rfl, hrest⟩ := List.cons.inj hnews
      exact congrArg (_ :: ·) (ih hrest)
    | cons symbol symbols =>
      obtain ⟨rfl, hrest⟩ := List.cons.inj hnews
      exact congrArg (_ :: ·) (ih hrest)
  | refer id new access exported _ ih =>
    obtain ⟨rfl, hrest⟩ := List.cons.inj hnews
    exact congrArg (_ :: ·) (ih hrest)

end Refill

/-! ## Programs -/

namespace Program

variable {ie8 : Bool} {p : Program}

/-- The events of a program inside its outermost scope. -/
def innerEvents (ie8 : Bool) (p : Program) : List ScopeEvent := ScopeEvent.stmts ie8 p.body

/-- The run that declares names, inside the outermost scope. -/
def declaring (p : Program) : Declaring :=
  let isModule := p.kind == .module
  ({} : Declaring).enter (if isModule then .module else .global) p.loc
    (isModule || ScopeEvent.usesStrict p.body)

/-- A program with what the resolution of its names looks at besides the events. -/
def view (ie8 : Bool) (p : Program) :
    View (SourceKind × Span × List String × List String) where
  tag := (p.kind, p.loc, p.files, directives p.body)
  events := p.innerEvents ie8

theorem walks (ie8 : Bool) (p : Program) : Walks (fun _ _ g p => p.mapIdentsM g) (view ie8) p :=
  walks_map (f := fun body => { p with body }) (walks_stmts ie8 p.body) (fun h => h.events)
    (fun body' h => by
      have hdirectives : directives body' = directives p.body := h
      show (p.kind, p.loc, p.files, directives body') = (p.kind, p.loc, p.files, directives p.body)
      rw [hdirectives]) fun _ _ => rfl

def bindNext (id : Ident) : StateM (List Nat) Ident := do
  match ← get with
  | symbol :: rest => set rest; return { id with symbol := some symbol }
  | [] => return id

def bindNextDeclared (id : Ident) : StateM (List (Option Nat)) Ident := do
  match ← get with
  | some symbol :: rest => set rest; return { id with symbol := some symbol }
  | none :: rest => set rest; return id
  | [] => return id

/-- A run over identifiers that takes one number from a list for each. -/
theorem mapM_next {α : Type} {next : Ident → StateM (List α) Ident}
    {bind : List Ident → List α → List Ident} (hnil : ∀ l, bind [] l = [])
    (hcons : ∀ id ids l, bind (id :: ids) l = (next id l).1 :: bind ids (next id l).2)
    (ids : List Ident) (l : List α) : (ids.mapM next l).1 = bind ids l := by
  induction ids generalizing l with
  | nil => exact (hnil l).symm
  | cons id ids ih =>
    rw [List.mapM_cons, hcons, ← ih]
    rfl

theorem mapM_bindNext (ids : List Ident) (symbols : List Nat) :
    (ids.mapM bindNext symbols).1 = Ident.bindAll ids symbols := by
  refine mapM_next (fun l => by cases l <;> rfl) (fun id ids l => ?_) ids symbols
  cases l with
  | nil => exact congrArg (id :: ·) (Ident.bindAll_nil ids).symm
  | cons symbol l => rfl

theorem mapM_bindNextDeclared (ids : List Ident) (symbols : List (Option Nat)) :
    (ids.mapM bindNextDeclared symbols).1 = Ident.bindSome ids symbols := by
  refine mapM_next (fun l => by cases l <;> rfl) (fun id ids l => ?_) ids symbols
  rcases l with _ | ⟨_ | symbol, l⟩
  · exact congrArg (id :: ·) (Ident.bindSome_nil ids).symm
  · rfl
  · rfl

/-- A program is built from its identifiers, and with others in their places it is changed as
they are. -/
theorem exists_build (ie8 : Bool) (p : Program) : ∃ build : List Ident → Program,
    build (ScopeEvent.idents (p.innerEvents ie8)) = p ∧
      ∀ news, news.length = (ScopeEvent.idents (p.innerEvents ie8)).length →
        Renamed (p.view ie8) news ((build news).view ie8)
          ∧ ∀ {m : Type → Type} [Monad m] [LawfulMonad m] (g : Ident → m Ident),
            (build news).mapIdentsM g = build <$> news.mapM g :=
  p.walks ie8

theorem mapIdents_build {build : List Ident → Program} {news : List Ident}
    (h : ∀ {m : Type → Type} [Monad m] [LawfulMonad m] (g : Ident → m Ident),
      (build news).mapIdentsM g = build <$> news.mapM g) (g : Ident → Ident) :
    (build news).mapIdents g = build (news.map g) := by
  have hmap := h (m := Id) fun id => pure (g id)
  rw [List.mapM_pure] at hmap
  exact hmap

theorem bindIdents_build {build : List Ident → Program} {news : List Ident}
    (h : ∀ {m : Type → Type} [Monad m] [LawfulMonad m] (g : Ident → m Ident),
      (build news).mapIdentsM g = build <$> news.mapM g) (symbols : List Nat) :
    (build news).bindIdents symbols = build (Ident.bindAll news symbols) := by
  rw [← mapM_bindNext]
  exact congrArg Prod.fst (congrFun (h bindNext) symbols)

theorem renamed_mapIdents (g : Ident → Ident) (ie8 : Bool) (p : Program) :
    Renamed (p.view ie8) ((ScopeEvent.idents (p.innerEvents ie8)).map g)
      ((p.mapIdents g).view ie8) := by
  obtain ⟨build, hself, hbuild⟩ := p.exists_build ie8
  have hmap := mapIdents_build (hbuild _ rfl).2 g
  rw [hself] at hmap
  rw [hmap]
  exact (hbuild _ (List.length_map _)).1

theorem renamed_bindIdents (symbols : List Nat) (ie8 : Bool) (p : Program) :
    Renamed (p.view ie8) (Ident.bindAll (ScopeEvent.idents (p.innerEvents ie8)) symbols)
      ((p.bindIdents symbols).view ie8) := by
  obtain ⟨build, hself, hbuild⟩ := p.exists_build ie8
  have hbind := bindIdents_build (hbuild _ rfl).2 symbols
  rw [hself] at hbind
  rw [hbind]
  exact (hbuild _ (Ident.length_bindAll _ _)).1

theorem declaredSymbols_scopeEvents (ie8 : Bool) (p : Program) (symbols : List Nat) :
    declaredSymbols (p.scopeEvents ie8) symbols = declaredSymbols (p.innerEvents ie8) symbols := by
  have happend : ∀ (es : List ScopeEvent) (symbols : List Nat),
      declaredSymbols (es ++ [.leave]) symbols = declaredSymbols es symbols := by
    intro es symbols
    fun_induction declaredSymbols es symbols <;> simp_all [declaredSymbols]
  exact happend _ symbols

/-- The program in which the declared names are bound, and what becomes of it when all are. -/
theorem bindDeclared_spec (ie8 : Bool) (p : Program) (symbols : List Nat) :
    Renamed (p.view ie8)
        (Ident.bindSome (ScopeEvent.idents (p.innerEvents ie8))
          (declaredSymbols (p.innerEvents ie8) symbols))
        ((p.bindDeclared ie8 symbols).view ie8)
      ∧ ∀ all : List Nat, all.length = (ScopeEvent.idents (p.innerEvents ie8)).length →
        (p.bindDeclared ie8 symbols).bindIdents all = p.bindIdents all := by
  obtain ⟨build, hself, hbuild⟩ := p.exists_build ie8
  have hdeclared : p.bindDeclared ie8 symbols = build (Ident.bindSome
      (ScopeEvent.idents (p.innerEvents ie8)) (declaredSymbols (p.innerEvents ie8) symbols)) := by
    have hbind := congrFun ((hbuild _ rfl).2 bindNextDeclared)
      (declaredSymbols (p.scopeEvents ie8) symbols)
    rw [hself] at hbind
    rw [← declaredSymbols_scopeEvents, ← mapM_bindNextDeclared]
    exact congrArg Prod.fst hbind
  obtain ⟨hrenamed, hchange⟩ := hbuild _
    (Ident.length_bindSome (ScopeEvent.idents (p.innerEvents ie8))
    (declaredSymbols (p.innerEvents ie8) symbols))
  refine ⟨hdeclared ▸ hrenamed, fun all hall => ?_⟩
  rw [hdeclared, bindIdents_build hchange, Ident.bindAll_bindSome hall,
    ← bindIdents_build (hbuild _ rfl).2, hself]

/-! ## What follows for the resolution of names -/

theorem innerEvents_mapIdents (g : Ident → Ident) (ie8 : Bool) (p : Program) :
    (p.mapIdents g).innerEvents ie8 = (p.innerEvents ie8).map (withIdent g) :=
  (p.renamed_mapIdents g ie8).events.eq_map

theorem innerEvents_bindIdents (symbols : List Nat) (ie8 : Bool) (p : Program) :
    (p.bindIdents symbols).innerEvents ie8 = label (p.innerEvents ie8) symbols :=
  (p.renamed_bindIdents symbols ie8).events.eq_label

theorem innerEvents_bindDeclared (symbols : List Nat) (ie8 : Bool) (p : Program) :
    (p.bindDeclared ie8 symbols).innerEvents ie8 = labelDeclared (p.innerEvents ie8) symbols :=
  (p.bindDeclared_spec ie8 symbols).1.events.eq_labelDeclared

theorem declaring_eq {q : Program} {news : List Ident}
    (h : Renamed (p.view ie8) news (q.view ie8)) :
    q.declaring = p.declaring ∧ q.fileName = p.fileName := by
  obtain ⟨hkind, hloc, hfiles, hdirectives⟩ : q.kind = p.kind ∧ q.loc = p.loc
      ∧ q.files = p.files ∧ directives q.body = directives p.body := by
    simpa [view] using h.tag
  have hstrict : usesStrict q.body = usesStrict p.body :=
    congrArg (·.contains "use strict") hdirectives
  constructor
  · unfold declaring
    rw [hkind, hloc, hstrict]
  · funext loc
    unfold fileName
    rw [hfiles]

end Program

end Laconic
