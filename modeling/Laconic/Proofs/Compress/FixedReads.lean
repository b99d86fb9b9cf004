import Laconic.Proofs.Scope.Occurrence
import Laconic.Proofs.Tree.Wording
import Laconic.Compress.Pass
import Laconic.Grammar.Program

/-!
# Reads of fixed values

A variable gets a fixed value only if the text of every read comes after the text of
the declaration.  Text is not the order in which a program is gone through: a pass of
compression moves expressions, and what is moved keeps its place in the text.  So a
variable may be read before its declaration and still be given a fixed value in a later
pass (`movedRead_is_early`).

What does hold in every pass is that the reads of a fixed variable follow its
declaration in the text (`reads_follow_fixed`), and in a program whose names stand in
the order of the text they follow it on the way through the program too.
-/

namespace Laconic

open ScopeTree

variable {ie8 : Bool} {q : Program} {x : Declarator} {kind : VarKind} {e : ScopeEvent}

/-! ## Where fixed values come from -/

namespace FixedValues

variable {body : BodyKind} {inert toplevel : Bool} {n : Nat} {s : Symbol} {t : ScopeTree} {v : Expr}
  {kind : VarKind}

def fix (t : ScopeTree) (entry : Nat × Expr) : ScopeTree :=
  t.modifySymbol entry.1 fun s => { s with fixed := some entry.2 }

/-- A symbol that is fixed is so by an entry, or was fixed before. -/
theorem mem_of_foldl_fix {entries : List (Nat × Expr)}
    (hs : (entries.foldl fix t).symbols[n]? = some s) (hfixed : s.fixed = some v) :
    ∃ s₀, t.symbols[n]? = some s₀ ∧ s = { s₀ with fixed := s.fixed }
      ∧ ((n, v) ∈ entries ∨ s₀.fixed = some v) := by
  induction entries generalizing t with
  | nil => exact ⟨s, hs, rfl, .inr hfixed⟩
  | cons entry rest ih =>
    obtain ⟨s₁, hs₁, heq, hcase⟩ := ih hs
    rw [fix, getElem?_symbols_modifySymbol] at hs₁
    split at hs₁
    · next hn =>
      obtain ⟨s₀, hs₀, rfl⟩ := Option.map_eq_some_iff.mp hs₁
      refine ⟨s₀, hs₀, heq, .inl ?_⟩
      rcases hcase with hmem | hlast
      · exact List.mem_cons_of_mem _ hmem
      · cases hlast
        rw [← hn]
        exact List.mem_cons_self
    · refine ⟨s₁, hs₁, heq, ?_⟩
      rcases hcase with hmem | hold
      · exact .inl (List.mem_cons_of_mem _ hmem)
      · exact .inr hold

/-- A symbol that is fixed in the end is fixed by a list of statements, and nothing else
of it has changed. -/
theorem mem_of_markFixed {p : Program} (hs : (t.markFixed p toplevel).symbols[n]? = some s)
    (hfixed : s.fixed = some v) :
    ∃ s₀ kind list, t.symbols[n]? = some s₀ ∧ s = { s₀ with fixed := s.fixed }
      ∧ .body kind list ∈ p.nodes ∧ (n, v) ∈ ofBody t toplevel kind true list := by
  obtain ⟨s₁, hs₁, heq, hcase⟩ := mem_of_foldl_fix hs hfixed
  simp only [Array.getElem?_map, Option.map_eq_some_iff] at hs₁
  obtain ⟨s₀, hs₀, rfl⟩ := hs₁
  rcases hcase with hmem | hcleared
  · obtain ⟨node, hnode, hentry⟩ := List.mem_flatMap.mp hmem
    cases node with
    | body kind list => exact ⟨s₀, kind, list, hs₀, heq, hnode, hentry⟩
    | _ => cases hentry
  · cases hcleared

theorem symbol_of_candidate? {id : Ident} {kind : BindingKind}
    (h : candidate? t toplevel id kind = some (n, s)) :
    id.symbol = some n ∧ t.symbols[n]? = some s := by
  obtain ⟨m, hid, h⟩ := Option.bind_eq_some_iff.mp h
  obtain ⟨s', hs, h⟩ := Option.bind_eq_some_iff.mp h
  obtain ⟨_, _, h⟩ := Option.bind_eq_some_iff.mp h
  cases h
  exact ⟨hid, hs⟩

theorem ofDeclarator?_eq_some (h : ofDeclarator? t toplevel body kind inert x = some (n, v)) :
    ∃ id s, x.target = .ident id ∧ x.init = some v ∧ id.symbol = some n
      ∧ t.symbols[n]? = some s ∧ (s.escaped = false → readsFollow s x.loc = true) := by
  unfold ofDeclarator? at h
  split at h
  · next id value htarget hinit =>
    obtain ⟨_, _, h⟩ := Option.bind_eq_some_iff.mp h
    obtain ⟨⟨m, s⟩, hcandidate, h⟩ := Option.bind_eq_some_iff.mp h
    obtain ⟨_, hguard, h⟩ := Option.bind_eq_some_iff.mp h
    cases h
    obtain ⟨hid, hs⟩ := symbol_of_candidate? hcandidate
    refine ⟨id, s, htarget, hinit, hid, hs, fun hescaped => ?_⟩
    simpa [guard, hescaped] using hguard
  · cases h

theorem mem_ofDeclarators {xs : List Declarator} {entry : Nat × Expr}
    (h : entry ∈ ofDeclarators t toplevel body kind inert xs) :
    ∃ x ∈ xs, ∃ inert', ofDeclarator? t toplevel body kind inert' x = some entry := by
  induction xs generalizing inert with
  | nil => cases h
  | cons x rest ih =>
    rcases List.mem_append.mp h with hfirst | hrest
    · exact ⟨x, List.mem_cons_self, inert, by simpa using hfirst⟩
    · obtain ⟨y, hy, inert', hentry⟩ := ih hrest
      exact ⟨y, List.mem_cons_of_mem _ hy, inert', hentry⟩

theorem exists_declarator_of_ofBody {list : List Stmt} (hconstant : v.isConstant = true)
    (h : (n, v) ∈ ofBody t toplevel body inert list) :
    ∃ d, .varDecl d ∈ list ∧ ∃ x ∈ d.declarators, ∃ inert',
      ofDeclarator? t toplevel body d.kind inert' x = some (n, v) := by
  induction list generalizing inert with
  | nil => cases h
  | cons s rest ih =>
    rcases List.mem_append.mp h with hfirst | hrest
    · cases s with
      | varDecl d => exact ⟨d, List.mem_cons_self, mem_ofDeclarators hfirst⟩
      | function f =>
        -- the value of a function is no constant
        obtain ⟨_, _, hvalue⟩ := Option.bind_eq_some_iff.mp (Option.mem_toList.mp hfirst)
        obtain ⟨_, _, hvalue⟩ := Option.bind_eq_some_iff.mp hvalue
        obtain ⟨_, _, hvalue⟩ := Option.bind_eq_some_iff.mp hvalue
        cases hvalue
        cases hconstant
      | _ => cases hfirst
    · obtain ⟨d, hd, hx⟩ := ih hrest
      exact ⟨d, List.mem_cons_of_mem _ hd, hx⟩

end FixedValues

/-! ## The order of the text -/

def Node.declared : Node → List (VarKind × Declarator)
  | .body _ list => list.flatMap fun s => match s with
    | .varDecl d => d.declarators.map (d.kind, ·)
    | _ => []
  | _ => []

/-- The declared variables of a program. -/
def Program.declared (q : Program) : List (VarKind × Declarator) := q.nodes.flatMap Node.declared

/-- The name of a declared variable stands before the end of its declaration. -/
def Declarator.namesInside (x : Declarator) : Bool :=
  match x.target with
  | .ident id => id.loc.file == x.loc.file && decide (id.loc.start.offset < x.loc.stop.offset)
  | _ => true

/-- The names of a program stand in the order of the text, and the names of declared
variables inside their declarations. -/
def Program.InTextOrder (q : Program) : Prop :=
  q.idents.Pairwise (fun a b => a.loc.file = b.loc.file → a.loc.start.offset < b.loc.start.offset)
    ∧ q.declared.all (·.2.namesInside) = true

instance (q : Program) : Decidable q.InTextOrder :=
  inferInstanceAs (Decidable (_ ∧ _))

theorem Program.mem_declared {kind : BodyKind} {list : List Stmt} {d : VarDecl}
    (hbody : .body kind list ∈ q.nodes) (hd : .varDecl d ∈ list) (hx : x ∈ d.declarators) :
    (d.kind, x) ∈ q.declared :=
  List.mem_flatMap.mpr ⟨_, hbody, List.mem_flatMap.mpr ⟨_, hd, List.mem_map_of_mem hx⟩⟩

theorem Program.exists_of_mem_declared (h : (kind, x) ∈ q.declared) :
    ∃ body list d, .body body list ∈ q.nodes
      ∧ .varDecl d ∈ list ∧ d.kind = kind ∧ x ∈ d.declarators := by
  obtain ⟨node, hnode, hx⟩ := List.mem_flatMap.mp h
  cases node with
  | body body list =>
    obtain ⟨s, hs, hx⟩ := List.mem_flatMap.mp hx
    cases s with
    | varDecl d =>
      obtain ⟨y, hy, heq⟩ := List.mem_map.mp hx
      cases heq
      exact ⟨body, list, d, hnode, hs, rfl, hy⟩
    | _ => cases hx
  | _ => cases hx

namespace ScopeEvent

theorem mem_stmts {list : List Stmt} {s : Stmt} (hs : s ∈ list) {e : ScopeEvent}
    (he : e ∈ stmt ie8 false s) : e ∈ stmts ie8 list := by
  induction list with
  | nil => cases hs
  | cons first rest ih =>
    rcases List.mem_cons.mp hs with rfl | hs
    · exact List.mem_append_left _ he
    · exact List.mem_append_right _ (ih hs)

theorem declare_mem_declarators {kind : BindingKind} {exported loop : Bool} {xs : List Declarator}
    (hx : x ∈ xs) {id : Ident} (htarget : x.target = .ident id) :
    .declare id kind exported loop ∈ declarators ie8 kind exported loop xs := by
  induction xs with
  | nil => cases hx
  | cons first rest ih =>
    obtain ⟨loc, target, init⟩ := first
    rcases List.mem_cons.mp hx with rfl | hx
    · cases htarget
      exact List.mem_append_left _ List.mem_cons_self
    · exact List.mem_append_right _ (ih hx)

end ScopeEvent

theorem Program.parallel (ie8 : Bool) (q : Program) :
    Parallel ie8 True q.nodes (q.innerEvents ie8) :=
  q.meets_program ie8 True fun _ => trivial

theorem Program.mem_innerEvents_of_declared (h : (kind, x) ∈ q.declared) {id : Ident}
    (htarget : x.target = .ident id) :
    .declare id (.ofVarKind kind) false false ∈ q.innerEvents ie8 := by
  obtain ⟨body, list, ⟨loc, k, xs⟩, hbody, hd, rfl, hx⟩ := exists_of_mem_declared h
  exact (q.parallel ie8).mem_of_body hbody _
    (ScopeEvent.mem_stmts hd (ScopeEvent.declare_mem_declarators hx htarget))

theorem ScopeEvent.exists_of_readOf? {n : Nat} {loc : Span} (h : e.readOf? n = some loc) :
    ∃ id, e.ident? = some id ∧ id.loc = loc := by
  cases e with
  | refer id access exported =>
    simp only [readOf?] at h
    split at h
    · cases h
      exact ⟨id, rfl, rfl⟩
    · cases h
  | _ => cases h

theorem Program.InTextOrder.lt_of_mem (h : q.InTextOrder) {pre post : List ScopeEvent}
    {e' : ScopeEvent} {a b : Ident} (hevents : q.innerEvents ie8 = pre ++ e :: post)
    (ha : e'.ident? = some a) (he' : e' ∈ pre) (hb : e.ident? = some b)
    (hfile : a.loc.file = b.loc.file) : a.loc.start.offset < b.loc.start.offset := by
  have hidents := h.1.sublist (q.parallel ie8).idents_sublist
  rw [hevents, ScopeEvent.idents, List.filterMap_append, List.filterMap_cons_some hb] at hidents
  have hmem : a ∈ pre.filterMap ScopeEvent.ident? := List.mem_filterMap.mpr ⟨e', he', ha⟩
  exact (List.pairwise_append.mp hidents).2.2 a hmem b List.mem_cons_self hfile

/-! ## Resolved programs -/

/-- The reads of a variable with a fixed constant follow its declaration in the text,
and on the way through the program too if its names stand in the order of the text. -/
theorem reads_follow_fixed {ie8 toplevel : Bool} {p q : Program} {t : ScopeTree}
    (h : resolve ie8 p = .ok (q, t)) {n : Nat} {s : Symbol} {v : Expr}
    (hs : (t.markFixed q toplevel).symbols[n]? = some s) (hfixed : s.fixed = some v)
    (hconstant : v.isConstant = true) (hescaped : s.escaped = false) :
    ∃ kind x id, (kind, x) ∈ q.declared ∧ x.target = .ident id ∧ id.symbol = some n
      ∧ x.init = some v
      ∧ (∀ loc ∈ (q.innerEvents ie8).filterMap (·.readOf? n),
        loc.file = x.loc.file ∧ x.loc.stop.offset ≤ loc.start.offset)
      ∧ (q.InTextOrder → ∃ pre post,
        q.innerEvents ie8 = pre ++ .declare id (.ofVarKind kind) false false :: post
          ∧ pre.filterMap (·.readOf? n) = []) := by
  obtain ⟨d, hrun, ht, hlabel, hdeclares, _⟩ := runs_of_resolve h
  obtain ⟨s₀, body, list, hs₀, heq, hbody, hentry⟩ := FixedValues.mem_of_markFixed hs hfixed
  obtain ⟨decl, hdecl, x, hx, inert, hvalue⟩ :=
    FixedValues.exists_declarator_of_ofBody hconstant hentry
  obtain ⟨id, s₁, htarget, hinit, hid, hs₁, hfollow⟩ := FixedValues.ofDeclarator?_eq_some hvalue
  cases Option.mem_unique hs₀ hs₁
  have hescaped₀ : s₀.escaped = false := by
    rw [heq] at hescaped
    exact hescaped
  have hreads : ∀ loc ∈ (q.innerEvents ie8).filterMap (·.readOf? n),
      loc.file = x.loc.file ∧ x.loc.stop.offset ≤ loc.start.offset := by
    intro loc hloc
    rw [← (usage_of_run hrun ht hlabel hdeclares hs₀).1] at hloc
    have hall := List.all_eq_true.mp (hfollow hescaped₀) loc hloc
    simpa using hall
  have hdeclared : (decl.kind, x) ∈ q.declared := Program.mem_declared hbody hdecl hx
  refine ⟨decl.kind, x, id, hdeclared, htarget, hid, hinit, hreads, fun horder => ?_⟩
  obtain ⟨pre, post, hevents⟩ :=
    List.append_of_mem (Program.mem_innerEvents_of_declared hdeclared htarget)
  refine ⟨pre, post, hevents, List.filterMap_eq_nil_iff.mpr ?_⟩
  intro e he
  -- a read before the name would stand before it in the text, and so inside the declaration
  by_contra hread
  obtain ⟨loc, hloc⟩ := Option.ne_none_iff_exists'.mp hread
  obtain ⟨a, ha, rfl⟩ := ScopeEvent.exists_of_readOf? hloc
  obtain ⟨hfile, hafter⟩ := hreads a.loc (by
    rw [hevents]
    exact List.mem_filterMap.mpr ⟨e, List.mem_append_left _ he, hloc⟩)
  have hinside := List.all_eq_true.mp horder.2 _ hdeclared
  obtain ⟨hidFile, hidBefore⟩ : id.loc.file = x.loc.file
      ∧ id.loc.start.offset < x.loc.stop.offset := by
    simpa [Declarator.namesInside, htarget] using hinside
  have hlt := horder.lt_of_mem hevents ha he rfl (hfile.trans hidFile.symm)
  omega

/-- A variable that is declared with a constant and read after that. -/
theorem reads_follow_fixed_letter :
    ∃ p q t s v, parse {} "function o()\x7bvar x='a';h(x)\x7d" = .ok p
      ∧ resolve false p = .ok (q, t)
      ∧ (t.markFixed q false).symbols[1]? = some s ∧ s.fixed = some v ∧ v.isConstant = true
      ∧ ∃ kind id pre post,
        q.innerEvents false = pre ++ .declare id (.ofVarKind kind) false false :: post
          ∧ id.symbol = some 1 ∧ pre.filterMap (·.readOf? 1) = [] := by
  have hrun : (parse {} "function o()\x7bvar x='a';h(x)\x7d").toOption.any (fun p =>
      (resolve false p).toOption.any fun r => decide r.1.InTextOrder
        && (r.2.markFixed r.1 false).symbols[1]?.any fun s =>
          s.fixed.any (·.isConstant) && !s.escaped) = true := by
    decide +kernel
  obtain ⟨p, hp, hrun⟩ := exists_ok_of_any hrun
  obtain ⟨⟨q, t⟩, hq, hrun⟩ := exists_ok_of_any hrun
  simp only [Bool.and_eq_true, decide_eq_true_eq] at hrun
  obtain ⟨horder, hsymbol⟩ := hrun
  obtain ⟨s, hs, hfixed⟩ := (Option.any_eq_true _ _).mp hsymbol
  rw [Bool.and_eq_true, Bool.not_eq_true'] at hfixed
  obtain ⟨v, hv, hconstant⟩ := (Option.any_eq_true _ _).mp hfixed.1
  obtain ⟨kind, x, id, _, _, hid, _, _, hfollow⟩ :=
    reads_follow_fixed hq hs hv hconstant hfixed.2
  obtain ⟨pre, post, hevents, hpre⟩ := hfollow horder
  exact ⟨p, q, t, s, v, hp, hq, hs, hv, hconstant, kind, id, pre, post, hevents, hid, hpre⟩

/-! ## A read that is moved -/

def passPrograms (o : CompressOptions) (ie8 strict : Bool) :
    Nat → Nat → Program → List Warning → List Program
  | 0, _, _, _ => []
  | passes + 1, size, p, warnings =>
    p :: match compressPass o ie8 strict p warnings with
      | .error _ => []
      | .ok (p, warnings) =>
        if size ≤ p.size then [] else passPrograms o ie8 strict passes p.size p warnings

/-- The programs that the passes of compression begin with. -/
def Program.passes (o : CompressOptions) (ie8 : Bool) (p : Program) : List Program :=
  let strict := p.kind == .module || hasDirective p.body "use strict"
  if hasDirective p.body "use asm" then []
  else passPrograms o ie8 strict (max o.passes 1) p.size p []

/-- Whether a symbol is read before it is declared. -/
def ScopeEvent.readsEarly (n : Nat) (events : List ScopeEvent) : Bool :=
  (events.takeWhile fun e => match e with
    | .declare id .. => id.symbol != some n
    | _ => true).any fun e => (e.readOf? n).isSome

/-- Whether a program has a symbol with a fixed constant that does not escape and is
read before it is declared. -/
def Program.readsFixedEarly (ie8 toplevel : Bool) (q : Program) (t : ScopeTree) : Bool :=
  (List.range t.symbols.size).any fun n =>
    (t.markFixed q toplevel).symbols[n]?.any fun s =>
      s.fixed.any (·.isConstant) && !s.escaped && ScopeEvent.readsEarly n (q.innerEvents ie8)

/-- The body of a function that takes the place of its call before a declaration is
moved there, and it reads the declared variable.  The next pass gives the variable a
fixed value. -/
theorem movedRead_is_early :
    let text := "function o()\x7bg(f());var x='a';h(x);function f()\x7breturn x\x7d\x7d"
    ((parse {} text).toOption.map fun p =>
      (p.passes { collapseVars := false } false).map fun p =>
        (resolve false p).toOption.map fun (q, t) => q.readsFixedEarly false false t)
      = some [some false, some true] := by
  decide +kernel

end Laconic
