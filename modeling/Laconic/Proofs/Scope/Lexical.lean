import Laconic.Proofs.Scope.Occurrence

/-!
# Resolution is lexical

What the two runs over a program bind its names to is what the finished tree says
about them.  The scopes around a name are the ancestors of its scope
(`ancestors_of_chain`), so the search of the second run, which went from scope to scope
at a time when some symbols were still missing, comes to the same symbol as
`ScopeTree.lookup?` does in the end: the tree only grows on the way, and a scope that
a search has left never learns the name.

A declaration that is hoisted comes to stand in `ScopeTree.varScope`.
-/

namespace Laconic

variable {t : ScopeTree}

/-- The scope that a name stands in. -/
def Site.scope (a : Site) : Nat := a.path.headD ScopeTree.root

namespace ScopeTree

/-! ## Paths are ancestors -/

section Paths

variable {t : ScopeTree} {path : List Nat}

theorem standsIn_of_hoists (h : t.Chain path) {kind : BindingKind}
    (hhoists : t.hoists path kind = true) :
    t.standsIn path kind = t.varScope (path.headD root) := by
  have hlast : path.getLastD root = path.getLastD (path.headD root) := by
    obtain ⟨id, rest, rfl⟩ := List.exists_cons_of_ne_nil h.ne_nil
    rfl
  rw [standsIn, if_pos hhoists, varScope, ancestors_of_chain h, hlast]

/-- What a declaration comes to stand in is known as soon as the scopes around it are
there. -/
theorem standsIn_of_extends {u : ScopeTree} (h : t.Extends u) (hpath : t.Chain path)
    (kind : BindingKind) : u.standsIn path kind = t.standsIn path kind := by
  have hframe : ∀ id ∈ path, u.frame? id = t.frame? id := by
    intro id hid
    obtain ⟨f, hf⟩ := (lt_size_scopes_iff t id).mp (hpath.lt_size id hid)
    rw [hf]
    exact h id f hf
  have hfind : ∀ ids : List Nat, (∀ id ∈ ids, id ∈ path) →
      ids.find? u.isVarScope = ids.find? t.isVarScope := by
    intro ids hids
    induction ids with
    | nil => rfl
    | cons id rest ih =>
      have hid : u.isVarScope id = t.isVarScope id := by
        rw [isVarScope_eq, isVarScope_eq, hframe id (hids id List.mem_cons_self)]
      rw [List.find?_cons, List.find?_cons, hid,
        ih fun id hid => hids id (List.mem_cons_of_mem _ hid)]
  rw [standsIn, standsIn, hoists_congr hframe hpath.ne_nil, hfind path fun _ h => h]

theorem lookup?_of_located (hresolved : t.Resolved) (hpath : t.Chain path) {name : String} {i : Nat}
    (h : t.Located name path i) :
    t.lookup? (path.headD root) name = some i
      ∨ t.lookup? (path.headD root) name = none ∧ t.globals.find? name = some i := by
  unfold lookup?
  rw [ancestors_of_chain hpath]
  rcases h with ⟨pre, scope, post, rfl, hpre, hfound⟩ | ⟨⟨scope, kind, hhome⟩, hall⟩
  · left
    have hnone : pre.findSome? (t.declared? name) = none :=
      List.findSome?_eq_none_iff.mpr fun id hid => (hpre id hid).1
    rw [List.findSome?_append, hnone, List.findSome?_cons, hfound]
    rfl
  · right
    refine ⟨List.findSome?_eq_none_iff.mpr fun id hid => (hall id hid).1, ?_⟩
    exact (hresolved.globals name i).mpr ⟨_, hhome, rfl, rfl⟩

end Paths

end ScopeTree

open ScopeTree

/-! ## Declarations -/

/-- The symbols that are declared at a place belong to the scope that the declaration
comes to stand in. -/
def ScopeTree.Stands (t : ScopeTree) (a : Site) : Prop :=
  ∀ i kind, a.Declares i kind → ∃ x, t.home? i = some x ∧ x.scope = t.standsIn a.path kind

theorem ScopeTree.Stands.mono {u : ScopeTree} {a : Site} (h : t.Stands a) (hpath : t.Chain a.path)
    (hextends : t.Extends u) (hlater : t.Later u) : u.Stands a := by
  intro i kind hi
  obtain ⟨x, hx, hscope⟩ := h i kind hi
  obtain ⟨_, hx', _⟩ := hlater i x hx
  exact ⟨_, hx', by rw [standsIn_of_extends hextends hpath, ← hscope]⟩

namespace Declaring

variable {fileName : Span → String} {d d' : Declaring} {fresh : Bool}

theorem Inv.stands_step {e : ScopeEvent} (hd : d.Inv fresh) (hstep : d.step fileName e = .ok d')
    (hlabel : ∀ id kind exported loop, e = .declare id kind exported loop →
      ∃ i, id.symbol = some i ∧ d'.symbols = d.symbols.push i) :
    ∀ a ∈ (e.site? d.spot).toList, d'.tree.Stands a := by
  intro a ha
  cases e with
  | declare id kind exported loop =>
    cases List.mem_singleton.mp ha
    rintro i _ ⟨hi, ⟨⟩⟩
    obtain ⟨_, hextends, _⟩ := spot_step hstep
    obtain ⟨x, hx, hscope, _⟩ := Twin.home_declare hd hstep (hlabel id kind exported loop rfl) hi
    exact ⟨x, hx, hscope.trans
      ((target_eq d kind).trans (standsIn_of_extends hextends hd.chain kind).symm)⟩
  | refer id access exported =>
    cases List.mem_singleton.mp ha
    rintro i kind ⟨_, ⟨⟩⟩
  | enter | leave | this => cases ha

theorem Course.stands {events : List ScopeEvent} (hd : Course fileName fresh events d d')
    (hlabel : d.Labelled fileName events) :
    ∀ a ∈ ScopeEvent.sites d.spot events, d'.tree.Stands a := by
  induction events generalizing d fresh with
  | nil => simp [ScopeEvent.sites]
  | cons e rest ih =>
    obtain ⟨d₁, hstep, _, hd₁⟩ := hd.step
    obtain ⟨hlabel₁, hlabelRest⟩ := hlabel d₁ hstep
    obtain ⟨hspot, _, _⟩ := spot_step hstep
    obtain ⟨_, hextends, _⟩ := spot_run hd₁.run
    intro a ha
    rw [ScopeEvent.sites, ← hspot] at ha
    rcases List.mem_append.mp ha with ha | ha
    · have hpath := (Twin.holds_site hd.inv hstep hlabel₁ a ha).1
      exact (hd.inv.stands_step hstep hlabel₁ a ha).mono hpath hextends hd₁.later
    · exact ih hd₁ hlabelRest a ha

end Declaring

/-! ## Resolved programs -/

/-- What the scopes and symbols of a program say about its names.  `sites` and
`innerEvents` go through the program in one order, and `idents` lists its identifiers. -/
structure ScopeTree.Lexical (ie8 : Bool) (t : ScopeTree) (q : Program) : Prop where
  /-- Every identifier is met once, in order, in the scopes that are around it. -/
  idents : (q.sites ie8).map (·.id) = q.idents
  ancestors : ∀ a ∈ q.sites ie8, t.ancestors a.scope = a.path
  /-- Every identifier is bound to a symbol of its name. -/
  named : ∀ id ∈ q.idents, ∃ s, t.symbolOf? id = some s ∧ s.name = id.name
  /-- A reference is bound to what the nearest scope declares under its name, and to
  the global symbol of the name if no scope does. -/
  refers : ∀ a ∈ q.sites ie8, a.declares = none →
    (∃ i, t.lookup? a.scope a.id.name = some i ∧ a.id.symbol = some i)
      ∨ t.lookup? a.scope a.id.name = none ∧
        ∃ i s, t.globals.find? a.id.name = some i ∧ a.id.symbol = some i
          ∧ t.symbols[i]? = some s ∧ s.undeclared = true
  /-- A hoisted declaration is bound to a symbol of the nearest function. -/
  declares : ∀ a ∈ q.sites ie8, ∀ kind, a.declares = some kind → t.hoists a.path kind = true →
    ∃ s, t.symbolOf? a.id = some s ∧ s.scope = t.varScope a.scope
  /-- A symbol has noted the places where it is read, in order, and how often it is
  written. -/
  usage : ∀ i s, t.symbols[i]? = some s →
    s.references = (q.innerEvents ie8).filterMap (·.readOf? i)
      ∧ s.assignments = (q.innerEvents ie8).countP (·.writes i)

theorem symbolOf?_of_home? {id : Ident} {i : Nat} {x : Home} (hid : id.symbol = some i)
    (hx : t.home? i = some x) : ∃ s, t.symbolOf? id = some s ∧ s.home = x := by
  obtain ⟨s, hs, hhome⟩ := Option.map_eq_some_iff.mp hx
  exact ⟨s, by rw [symbolOf?, hid, Option.bind_some, hs], hhome⟩

section Runs

variable {ie8 : Bool} {q : Program} {t : ScopeTree} {d : Declaring}
  (hrun : (q.innerEvents ie8).foldlM (Declaring.step q.fileName) q.declaring = .ok d)
  (ht : t = ((q.innerEvents ie8).foldl Referring.step d.referring).tree.pin)

include hrun ht

theorem grows_declared_of_run : d.tree.Grows t := by
  obtain ⟨_, hgrows⟩ := (Declaring.ready_referring hrun).run
  exact hgrows.trans (grows_of_run hrun ht)

/-- References of a resolved program, in its tree. -/
theorem located_of_run (hlabel : d.referring.Labelled (q.innerEvents ie8)) :
    ∀ a ∈ q.sites ie8, a.declares = none →
    ∃ i, a.id.symbol = some i ∧ t.Located a.id.name a.path i := by
  intro a ha hrefer
  obtain ⟨i, hi, hlocated⟩ := (Declaring.ready_referring hrun).located_run hlabel a ha hrefer
  exact ⟨i, hi, hlocated.mono (grows_of_run hrun ht)⟩

variable (hdeclares : ScopeEvent.Declares (q.innerEvents ie8) d.symbols.toList)

include hdeclares

/-- The scopes around the names of a resolved program are scopes of its tree. -/
theorem chain_of_run : ∀ a ∈ q.sites ie8, t.Chain a.path := by
  intro a ha
  exact (grows_declared_of_run hrun ht).chain (holds_of_run hrun hdeclares a ha).1

/-- Each name is bound in the scopes around it. -/
theorem stands_of_run : ∀ a ∈ q.sites ie8, t.Stands a := by
  intro a ha i kind hi
  have hgrows := grows_declared_of_run hrun ht
  have hpath := (holds_of_run hrun hdeclares a ha).1
  obtain ⟨x, hx, hscope⟩ := (Declaring.course_of_run hrun).stands (labelled_of_run hrun hdeclares)
    a ha i kind hi
  exact ⟨x, hgrows.home i x hx, by rw [standsIn_of_extends (.of_eq hgrows.frame) hpath, hscope]⟩

end Runs

/-- A resolved program is bound lexically and completely, if its methods have no names of
their own, as in each parsed program. -/
theorem lexical_of_resolve {ie8 : Bool} {p q : Program} {t : ScopeTree}
    (hmethods : p.methodsUnnamed = true ∨ p.Parsed) (h : resolve ie8 p = .ok (q, t)) :
    t.Lexical ie8 q := by
  have hmethods := hmethods.elim id Program.Parsed.methodsUnnamed
  obtain ⟨d, hrun, ht, hlabel, hdeclares, _⟩ := runs_of_resolve h
  have hresolved := (resolved_of_resolve h).1
  have hmet : q.Met ie8 :=
    Program.met_of_methodsUnnamed (Program.methodsUnnamed_of_resolve hmethods h) ie8
  have hidents : (q.sites ie8).map (·.id) = q.idents := (ScopeEvent.id_sites _ _).trans hmet
  have hbound : ∀ id ∈ q.idents, ∃ i, id.symbol = some i := by
    intro id hid
    have hmem : id.symbol ∈ q.idents.map (·.symbol) := List.mem_map_of_mem hid
    rw [← hmet, hlabel.map_symbol] at hmem
    obtain ⟨i, _, hi⟩ := List.mem_map.mp hmem
    exact ⟨i, hi.symm⟩
  exact {
    idents := hidents
    ancestors := fun a ha => ancestors_of_chain (chain_of_run hrun ht hdeclares a ha)
    named := by
      intro id hid
      obtain ⟨i, hi⟩ := hbound id hid
      rw [← hidents] at hid
      obtain ⟨a, ha, rfl⟩ := List.mem_map.mp hid
      obtain ⟨x, hx, hname⟩ := named_of_run hrun ht hlabel hdeclares a ha i hi
      obtain ⟨s, hs, rfl⟩ := symbolOf?_of_home? hi hx
      exact ⟨s, hs, hname⟩
    refers := by
      intro a ha hrefer
      obtain ⟨i, hi, hlocated⟩ := located_of_run hrun ht hlabel a ha hrefer
      have hpath := chain_of_run hrun ht hdeclares a ha
      rcases lookup?_of_located hresolved hpath hlocated with hfound | ⟨hnone, hglobal⟩
      · exact .inl ⟨i, hfound, hi⟩
      · obtain ⟨x, hx, hundeclared, _⟩ := (hresolved.globals _ i).mp hglobal
        obtain ⟨s, hs, rfl⟩ := Option.map_eq_some_iff.mp hx
        exact .inr ⟨hnone, i, s, hglobal, hi, hs, hundeclared⟩
    declares := by
      intro a ha kind hkind hhoists
      obtain ⟨i, hi⟩ := hbound a.id (hidents ▸ List.mem_map_of_mem ha)
      have hpath := chain_of_run hrun ht hdeclares a ha
      obtain ⟨x, hx, hscope⟩ := stands_of_run hrun ht hdeclares a ha i kind ⟨hi, hkind⟩
      obtain ⟨s, hs, rfl⟩ := symbolOf?_of_home? hi hx
      exact ⟨s, hs, hscope.trans (standsIn_of_hoists hpath hhoists)⟩
    usage := fun _ _ hs => usage_of_run hrun ht hlabel hdeclares hs }

/-- A function that goes through the properties of its parameter with a variable,
`function f(o){for(var k in o){k=g(arguments)}return k}`. -/
def keyLoop : Program :=
  let name (text : String) : Ident := ⟨.nowhere, text, none⟩
  let ref (text : String) : Expr := .ident (name text)
  let head : ForTarget := .decl ⟨.nowhere, .var, [⟨.nowhere, .ident (name "k"), none⟩]⟩
  let call : Expr := .call .nowhere false false (ref "g") [ref "arguments"]
  let body : Stmt := .expr .nowhere (.assign .nowhere .plain (.expr (ref "k")) call)
  let loop : Stmt := .forIn .nowhere head (ref "o") (.block ⟨.nowhere, [body]⟩)
  ⟨.nowhere, .script,
    [.function ⟨.nowhere, some (name "f"), false, false, [.ident (name "o")],
      ⟨.nowhere, [loop, .return .nowhere (some (ref "k"))]⟩⟩], [], none, []⟩

/-- The variable of the loop is written in each round and once in the body. -/
theorem lexical_keyLoop : keyLoop.methodsUnnamed = true
    ∧ ∃ q t, resolve false keyLoop = .ok (q, t) ∧ t.Lexical false q
      ∧ (t.symbols[2]?.map fun s => (s.name, s.scope, s.assignments)) = some ("k", 1, 2) := by
  have hmethods : keyLoop.methodsUnnamed = true := by decide
  have hrun : (resolve false keyLoop).toOption.any (fun r =>
      (r.2.symbols[2]?.map fun s => (s.name, s.scope, s.assignments)) == some ("k", 1, 2))
        = true := by
    decide +kernel
  obtain ⟨⟨q, t⟩, h, hsymbol⟩ := exists_ok_of_any hrun
  exact ⟨hmethods, q, t, h, lexical_of_resolve (.inl hmethods) h, beq_iff_eq.mp hsymbol⟩

end Laconic
