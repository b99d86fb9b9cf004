import Laconic.Proofs.Rename.Reuse
import Laconic.Proofs.Scope.Lexical

/-!
# Enclosed symbols and pinned scopes

While references are found, each of them marks the scopes between it and the scope that declares
its symbol, and a reference to an `eval` that nobody declares marks its own scope.  So the marks of
a resolved program can be read off its references: a scope encloses the symbols that are
referred to in it or further in and declared in it or further out, and its names must stay just
if `eval` or `with` is used in it or further in.
-/

namespace Laconic

open ScopeTree ScopeEvent

/-! ## Scopes on the way -/

namespace ScopeTree

variable {t : ScopeTree} {path : List Nat} {j scope : Nat}

theorem mem_upTo_iff (h : path.Pairwise (· > ·)) (hscope : scope ∈ path) :
    j ∈ Referring.upTo scope path ↔ j ∈ path ∧ scope ≤ j := by
  induction path with
  | nil => cases hscope
  | cons id path ih =>
    obtain ⟨hless, hpath⟩ := List.pairwise_cons.mp h
    rw [Referring.upTo]
    split
    · next heq =>
      obtain rfl : id = scope := by simpa using heq
      constructor
      · intro hj
        obtain rfl := List.mem_singleton.mp hj
        exact ⟨List.mem_cons_self, Nat.le_refl _⟩
      · rintro ⟨hj, hle⟩
        rcases List.mem_cons.mp hj with rfl | hj
        · exact List.mem_singleton_self _
        · exact absurd (hless j hj) (Nat.not_lt_of_le hle)
    · next hne =>
      have hmem : scope ∈ path := by
        rcases List.mem_cons.mp hscope with rfl | hmem
        · simp at hne
        · exact hmem
      rw [List.mem_cons, List.mem_cons, ih hpath hmem]
      constructor
      · rintro (rfl | ⟨hj, hle⟩)
        · exact ⟨.inl rfl, Nat.le_of_lt (hless scope hmem)⟩
        · exact ⟨.inr hj, hle⟩
      · rintro ⟨rfl | hj, hle⟩
        · exact .inl rfl
        · exact .inr ⟨hj, hle⟩

/-- Of the scopes on a path, those with smaller numbers are around the others. -/
theorem Chain.mem_ancestors_iff (h : t.Chain path) (hj : j ∈ path) (hscope : scope ∈ path) :
    scope ∈ t.ancestors j ↔ scope ≤ j := by
  obtain ⟨pre, post, rfl⟩ := List.append_of_mem hj
  have hup : t.ancestors j = j :: post := by
    clear hj hscope
    induction pre with
    | nil => exact ancestors_of_chain h
    | cons id pre ih => exact ih (h.tail (by simp))
  obtain ⟨-, hpost, hless⟩ := List.pairwise_append.mp h.pairwise
  rw [hup]
  constructor
  · intro hmem
    rcases List.mem_cons.mp hmem with rfl | hmem
    · exact Nat.le_refl _
    · exact Nat.le_of_lt ((List.pairwise_cons.mp hpost).1 scope hmem)
  · intro hle
    rcases List.mem_append.mp hscope with hpre | hmem
    · exact absurd (hless scope hpre j List.mem_cons_self) (Nat.not_lt_of_le hle)
    · exact hmem

theorem Alike.encloses_iff {u : ScopeTree} (h : t.Alike u) (id i : Nat) :
    u.Encloses id i ↔ t.Encloses id i :=
  ⟨.of_enclosed (h.enclosed id).symm, h.encloses⟩

/-- The scope that declares what a name stands for is around the name. -/
theorem Located.scope_mem (h : t.Resolved) (hchain : t.Chain path) {name : String} {i : Nat}
    (hi : t.Located name path i) : ∃ x, t.home? i = some x ∧ x.scope ∈ path := by
  rcases hi with ⟨pre, scope, post, rfl, -, hfound⟩ | ⟨⟨scope, kind, hhome⟩, -⟩
  · obtain ⟨kind, hhome⟩ := h.home?_of_declared? hfound
    exact ⟨_, hhome, by simp⟩
  · exact ⟨_, hhome, (h.undeclared i _ hhome).2 rfl ▸ hchain.root_mem⟩

end ScopeTree

/-! ## References that mark scopes -/

namespace Site

def withIdent (g : Ident → Ident) (a : Site) : Site := { a with id := g a.id }

/-- A name refers to a symbol from inside a scope in which, or around which, it is declared. -/
def Reaches (t : ScopeTree) (a : Site) (id i : Nat) : Prop :=
  a.declares = none ∧ a.id.symbol = some i ∧ id ∈ a.path ∧
    ∃ x, t.home? i = some x ∧ x.scope ∈ t.ancestors id

/-- Whether a name in a scope refers to an `eval` that nobody declares. -/
def evaluates (t : ScopeTree) (id : Nat) (a : Site) : Bool :=
  a.declares.isNone && (a.id.name == "eval" && (a.id.symbol.bind t.home?).any (·.undeclared)
    && a.scope == id)

end Site

theorem ScopeEvent.sites_withIdent (g : Ident → Ident) (p : Spot) (events : List ScopeEvent) :
    sites p (events.map (withIdent g)) = (sites p events).map (·.withIdent g) := by
  induction events generalizing p with
  | nil => rfl
  | cons e rest ih =>
    rw [List.map_cons, sites, sites, List.map_append, ih]
    cases e <;> rfl

/-- The places of names that are changed. -/
theorem Program.sites_mapIdents (g : Ident → Ident) (ie8 : Bool) (p : Program) :
    (p.mapIdents g).sites ie8 = (p.sites ie8).map (·.withIdent g) := by
  rw [sites, innerEvents_mapIdents, ScopeEvent.sites_withIdent, ← sites]

/-- What a scope says about `eval` and `with`. -/
structure Flags where
  kind : ScopeKind
  usesEval : Bool
  usesWith : Bool
  pinned : Bool

def Scope.flags (s : Scope) : Flags := ⟨s.kind, s.usesEval, s.usesWith, s.pinned⟩

namespace Flags

/-- Notes whether `eval` is used. -/
def note (f : Flags) (eval : Bool) : Flags := { f with usesEval := f.usesEval || eval }

theorem note_false (f : Flags) : f.note false = f := by simp [note]

theorem note_note (f : Flags) (a b : Bool) : (f.note a).note b = f.note (a || b) := by
  simp [note, Bool.or_assoc]

end Flags

namespace ScopeTree

def flags? (t : ScopeTree) (id : Nat) : Option Flags := t.scopes[id]?.map Scope.flags

end ScopeTree

/-- What the names at some places mark, seen from a later tree. -/
structure Marks (t : ScopeTree) (as : List Site) (u v : ScopeTree) : Prop where
  flags : ∀ j, v.flags? j = (u.flags? j).map (·.note (as.any (·.evaluates t j)))
  encloses : ∀ j k, v.Encloses j k ↔ u.Encloses j k ∨ ∃ a ∈ as, a.Reaches t j k

namespace Marks

variable {t u v w : ScopeTree} {as bs : List Site}

/-- Declarations mark nothing. -/
theorem of_alike (h : u.Alike v) (hflags : ∀ j, v.flags? j = u.flags? j)
    (has : ∀ a ∈ as, a.declares ≠ none) : Marks t as u v where
  flags j := by
    have heval : as.any (·.evaluates t j) = false :=
      List.any_eq_false.mpr fun a ha => by simp [Site.evaluates, has a ha]
    rw [hflags, heval]
    simp only [Flags.note_false]
    exact Option.map_id'.symm
  encloses j k := by
    rw [h.encloses_iff]
    exact ⟨.inl, Or.rec id fun ⟨a, ha, hreaches⟩ => absurd hreaches.1 (has a ha)⟩

theorem trans (h : Marks t as u v) (h' : Marks t bs v w) : Marks t (as ++ bs) u w where
  flags j := by
    rw [h'.flags, h.flags, Option.map_map, List.any_append]
    exact congrArg (Option.map · _) (funext fun f => f.note_note _ _)
  encloses j k := by
    rw [h'.encloses, h.encloses, or_assoc]
    simp only [List.mem_append, or_and_right, exists_or]

end Marks

namespace Referring

section Settle

variable (r : Referring) (id : Ident) (access : Access) (crossed : Bool) (t : ScopeTree) (i : Nat)

theorem flags?_locate (name : String) (stack : List Nat) (j : Nat) :
    (locate t name stack).1.flags? j = t.flags? j := by
  rcases locate_cases t name stack with ⟨i, heq⟩ | ⟨scope, heq⟩ | heq
  · rw [heq]
  · rw [heq]
    refine (map_getElem?_addSymbol _ _ _ _ _ Scope.flags (fun _ _ => rfl) j).trans ?_
    apply map_getElem?_modifyScope
    exact fun _ => rfl
  · rw [heq]
    exact map_getElem?_addSymbol t name .global root .nowhere Scope.flags (fun _ _ => rfl) j

theorem encloses_locate (name : String) (stack : List Nat) (j k : Nat) :
    (locate t name stack).1.Encloses j k ↔ t.Encloses j k := by
  rcases locate_cases t name stack with ⟨i, heq⟩ | ⟨scope, heq⟩ | heq
  · rw [heq]
  · rw [heq]
    refine (encloses_addSymbol _ _ _ _ _ j k).trans (Alike.encloses_iff ?_ j k)
    exact alike_modifyScope t scope _ (fun _ => rfl) (fun _ => rfl) fun _ => rfl
  · rw [heq]
    exact encloses_addSymbol t name .global root .nowhere j k

theorem flags?_encloseAll (path : List Nat) (j : Nat) :
    (path.foldl (fun t scope => enclose t i scope) t).flags? j = t.flags? j := by
  induction path generalizing t with
  | nil => rfl
  | cons scope path ih =>
    rw [List.foldl_cons, ih]
    exact map_getElem?_modifyScope t scope _ Scope.flags (fun s => by split <;> rfl) j

/-- A reference to an `eval` that nobody declares is noted in the innermost scope. -/
theorem flags?_settle (j : Nat) : (settle r id access crossed t i).flags? j
    = (t.flags? j).map (·.note (id.name == "eval" && (t.home? i).any (·.undeclared)
      && r.stack.headD root == j)) := by
  have hundeclared : ∀ u : ScopeTree, u.symbols = t.symbols →
      (u.modifySymbol i (noteAccess access id.loc crossed)).symbols[i]?.any (·.undeclared)
        = (t.home? i).any (·.undeclared) := by
    intro u hu
    rw [getElem?_symbols_modifySymbol, if_pos rfl, hu, home?, Option.any_map, Option.any_map]
    rfl
  unfold settle
  dsimp only
  rw [hundeclared _ (encloser_foldl t i _).symbols, ← flags?_encloseAll t i
    (upTo ((t.symbols[i]?.map (·.scope)).getD root) r.stack) j]
  generalize (upTo ((t.symbols[i]?.map (·.scope)).getD root) r.stack).foldl
    (fun t scope => enclose t i scope) t = u
  cases id.name == "eval" && (t.home? i).any (·.undeclared) with
  | false =>
    simp only [Bool.false_and, Flags.note_false]
    exact Option.map_id'.symm
  | true =>
    rw [if_pos rfl, Bool.true_and, flags?, getElem?_scopes_modifyScope]
    generalize r.stack.headD root = head
    split
    · next hj =>
      rw [beq_iff_eq.mpr hj, flags?, Option.map_map, Option.map_map]
      refine congrArg (Option.map · _) (funext fun s => ?_)
      simp [Scope.flags, Flags.note]
    · next hj =>
      rw [beq_eq_false_iff_ne.mpr hj]
      simp only [Flags.note_false]
      exact Option.map_id'.symm

end Settle

variable {r : Referring} {e : ScopeEvent} {t : ScopeTree}

theorem marks_step (hr : r.Inv)
    (hlabel : ∀ id, e.ident? = some id → ∃ i, id.symbol = some i ∧ r.emits e = [i])
    (hgrows : (r.step e).tree.Grows t) :
    Marks t (e.site? r.spot).toList r.tree (r.step e).tree := by
  obtain ⟨halike, -⟩ := alike_step r e
  cases e with
  | enter | leave => exact .of_alike halike (fun _ => rfl) (List.forall_mem_nil _)
  | this =>
    refine .of_alike halike (fun j => ?_) (List.forall_mem_nil _)
    simp only [step]
    split
    · apply map_getElem?_modifyScope
      exact fun _ => rfl
    · rfl
  | declare id kind exported loop =>
    refine .of_alike halike (fun j => ?_) (by simp [site?])
    simp only [step]
    split
    · split <;> rfl
    · rfl
  | refer id access exported =>
    obtain ⟨i, hid, hemits⟩ := hlabel id rfl
    obtain ⟨crossed, heq⟩ := refer_eq r id access
    obtain ⟨hresolved, hfound, hlocated⟩ := locate_spec hr.resolved id.name hr.chain
    obtain rfl : (locate r.tree id.name r.stack).2 = i := by simpa [emits, heq] using hemits
    obtain ⟨x, hx, hmem⟩ := hlocated.scope_mem hresolved (hfound.chain hr.chain)
    have hsettled := (settle_spec hresolved (hfound.chain hr.chain) hlocated access crossed).2
    have hsearched : r.searched (.refer id access exported) = _ := congrArg (·.1.tree) heq
    rw [hsearched] at halike
    have hlater := (hsettled.trans halike.grows).trans hgrows
    have hchain := (hfound.trans hlater).chain hr.chain
    have hhome := hlater.home _ _ hx
    refine ⟨fun j => ?_, fun j k => ?_⟩
    · have hflags : (r.step (.refer id access exported)).tree.flags? j
          = (r.searched (.refer id access exported)).flags? j := by cases exported <;> rfl
      rw [hflags, hsearched, flags?_settle, flags?_locate, hx]
      simp [site?, Site.evaluates, Site.scope, spot, hid, hhome]
    · rw [halike.encloses_iff, (alike_settle ..).1.encloses_iff, (encloser_foldl ..).encloses,
        encloses_locate, scope_of_home? hx, mem_upTo_iff hr.chain.pairwise hmem]
      refine or_congr_right ⟨?_, ?_⟩
      · rintro ⟨rfl, ⟨hj, hle⟩, -⟩
        exact ⟨_, List.mem_singleton_self _, rfl, hid, hj, x, hhome,
          (hchain.mem_ancestors_iff hj hmem).mpr hle⟩
      · rintro ⟨a, ha, -, hsymbol, hj, y, hy, hup⟩
        obtain rfl := List.mem_singleton.mp ha
        cases Option.mem_unique hid hsymbol
        cases Option.mem_unique hhome hy
        exact ⟨rfl, ⟨hj, (hchain.mem_ancestors_iff hj hmem).mp hup⟩,
          (hfound.chain hr.chain).lt_size j hj⟩

theorem Ready.marks_run {events : List ScopeEvent} (hr : r.Ready events)
    (hlabel : r.Labelled events)
    (hgrows : (events.foldl Referring.step r).tree.Grows t) :
    Marks t (sites r.spot events) r.tree (events.foldl Referring.step r).tree := by
  induction events generalizing r with
  | nil => exact .of_alike (.refl _) (fun _ => rfl) (List.forall_mem_nil _)
  | cons e rest ih =>
    obtain ⟨hr₁, -⟩ := hr.step
    have hfirst := marks_step hr.inv hlabel.1 (hr₁.run.2.trans hgrows)
    have hrest := ih hr₁ hlabel.2 hgrows
    rw [spot_step] at hrest
    exact hfirst.trans hrest

end Referring

/-! ## Before references are found -/

namespace Declaring

variable {fileName : Span → String} {d d' : Declaring}

/-- Of all marks, a scope has only that of a `with`. -/
def Unmarked (d : Declaring) : Prop :=
  ∀ id f, d.tree.flags? id = some f → f = ⟨f.kind, false, f.kind == .with, false⟩

theorem Unmarked.step {e : ScopeEvent} (h : d.Unmarked) (hstep : d.step fileName e = .ok d') :
    d'.Unmarked := by
  cases e with
  | enter kind loc strict =>
    cases hstep
    intro id f hf
    rw [flags?, d.map_getElem?_enter kind loc strict Scope.flags fun _ _ => rfl] at hf
    split at hf
    · cases hf
      rfl
    · exact h id f hf
  | declare id kind exported loop =>
    obtain ⟨d₁, i, hd, rfl⟩ := step_declare hstep
    intro j f hf
    refine h j f ?_
    rw [flags?, ← map_getElem?_declare? hd Scope.flags fun _ _ => rfl, ← hf]
    cases exported <;> rfl
  | leave | refer | this =>
    cases hstep
    exact h

theorem Unmarked.run {events : List ScopeEvent} (h : d.Unmarked)
    (hrun : events.foldlM (Declaring.step fileName) d = .ok d') : d'.Unmarked := by
  induction events generalizing d with
  | nil =>
    cases hrun
    exact h
  | cons e rest ih =>
    obtain ⟨d₁, hstep, hrest⟩ := foldlM_cons_eq_ok hrun
    exact ih (h.step hstep) hrest

end Declaring

theorem Program.unmarked_declaring (p : Program) : p.declaring.Unmarked := by
  have hempty : ({} : Declaring).Unmarked := by simp [Declaring.Unmarked, flags?]
  have hstep : ({} : Declaring).step p.fileName (.enter _ p.loc _) = .ok p.declaring := rfl
  exact hempty.step hstep

/-! ## Resolved programs -/

/-- A scope has a reference to an `eval` that nobody declares, or is that of a `with`. -/
def ScopeTree.Looks (ie8 : Bool) (t : ScopeTree) (q : Program) (id : Nat) : Prop :=
  (∃ a ∈ q.sites ie8, a.declares = none ∧ a.scope = id ∧ a.id.name = "eval" ∧
      ∃ s, t.symbolOf? a.id = some s ∧ s.undeclared = true)
    ∨ ∃ s, t.scopes[id]? = some s ∧ s.kind = .with

theorem ScopeTree.looks_iff (ie8 : Bool) (t : ScopeTree) (q : Program) (id : Nat) :
    t.Looks ie8 q id ↔ (q.sites ie8).any (·.evaluates t id) = true
      ∨ (t.frame? id).any (·.kind == .with) = true := by
  refine or_congr ?_ ?_
  · rw [List.any_eq_true]
    refine exists_congr fun a => and_congr_right fun _ => ?_
    simp only [Site.evaluates, Bool.and_eq_true, Option.isNone_iff_eq_none, beq_iff_eq]
    have hundeclared : (a.id.symbol.bind t.home?).any (·.undeclared) = true
        ↔ ∃ s, t.symbolOf? a.id = some s ∧ s.undeclared = true := by
      rw [symbolOf?]
      cases a.id.symbol with
      | none => simp
      | some i => cases hs : t.symbols[i]? <;> simp [home?, hs, Symbol.home]
    rw [hundeclared]
    tauto
  · rw [frame?]
    cases t.scopes[id]? <;> simp [Scope.frame]

section Runs

variable {ie8 : Bool} {q : Program} {t : ScopeTree} {d : Declaring}
  (hrun : (q.innerEvents ie8).foldlM (Declaring.step q.fileName) q.declaring = .ok d)
  (ht : t = ((q.innerEvents ie8).foldl Referring.step d.referring).tree.pin)
  (hlabel : d.referring.Labelled (q.innerEvents ie8))

include hrun ht hlabel

/-- A scope encloses exactly what the names within it reach. -/
theorem encloses_iff_of_run (id i : Nat) :
    t.Encloses id i ↔ ∃ a ∈ q.sites ie8, a.Reaches t id i := by
  have hready := Declaring.ready_referring hrun
  have honly := (pin_spec hready.run.1.resolved.hangs).1
  rw [← ht] at honly
  rw [honly.encloses_iff, (hready.marks_run hlabel honly.grows).encloses]
  refine or_iff_right ?_
  rintro ⟨s, hs, hmem⟩
  rw [(Declaring.inv_of_run hrun).enclosed id s hs] at hmem
  cases hmem

/-- The marks of a scope, before those of the scopes inside it are passed on. -/
theorem flags_of_run {id : Nat} {s : Scope}
    (hs : ((q.innerEvents ie8).foldl Referring.step d.referring).tree.scopes[id]? = some s) :
    s.pinned = false ∧ s.usesWith = (s.kind == .with)
      ∧ s.usesEval = (q.sites ie8).any (·.evaluates t id) := by
  have hready := Declaring.ready_referring hrun
  have honly := (pin_spec hready.run.1.resolved.hangs).1
  rw [← ht] at honly
  have hflags := (hready.marks_run hlabel honly.grows).flags id
  rw [flags?, hs, Option.map_some] at hflags
  obtain ⟨f, hf, heq⟩ := Option.map_eq_some_iff.mp hflags.symm
  rw [q.unmarked_declaring.run hrun id f hf] at heq
  simp only [Flags.note, Scope.flags, Flags.mk.injEq, Bool.false_or] at heq
  obtain ⟨hkind, heval, hwith, hpinned⟩ := heq
  exact ⟨hpinned.symm, hkind ▸ hwith.symm, heval.symm⟩

/-- Scopes are pinned exactly around a scope that looks up names at run time. -/
theorem pins_iff_of_run (hdeclares : Declares (q.innerEvents ie8) d.symbols.toList) (id : Nat) :
    t.pins id = true ↔ ∃ j, t.Looks ie8 q j ∧ id ∈ t.ancestors j := by
  obtain ⟨honly, hpins⟩ := pin_spec (Declaring.ready_referring hrun).run.1.resolved.hangs
  rw [← ht] at honly hpins
  rw [hpins]
  refine exists_congr fun j => and_congr ?_ ?_
  · rw [looks_iff, honly.frame, frame?, pins, evaluates]
    cases hs : ((q.innerEvents ie8).foldl Referring.step d.referring).tree.scopes[j]? with
    | some s =>
      obtain ⟨hpinned, hwith, heval⟩ := flags_of_run hrun ht hlabel hs
      simp [hpinned, hwith, heval, Scope.frame]
    | none =>
      suffices (q.sites ie8).any (·.evaluates t j) = false by simp [this]
      refine List.any_eq_false.mpr fun a ha => ?_
      have hchain := chain_of_run hrun ht hdeclares a ha
      obtain ⟨scope, rest, hpath⟩ := List.exists_cons_of_ne_nil hchain.ne_nil
      have hlt := hchain.lt_size scope (by simp [hpath])
      have hle : t.scopes.size ≤ j := by
        rw [honly.size]
        simpa using hs
      have hne : a.scope ≠ j := by
        rw [Site.scope, hpath]
        exact Nat.ne_of_lt (Nat.lt_of_lt_of_le hlt hle)
      simp [Site.evaluates, hne]
  · rw [ancestors, ancestors, honly.size, ancestorsWithin_congr honly.frame]

end Runs

/-- In a resolved program, a scope encloses the symbols to which some name in it or further in
refers and which it or a scope around it declares; global symbols count as declared in the
outermost scope.  The names of a scope must stay just if it or a scope inside it uses `eval` or
`with`. -/
theorem encloses_iff_and_pins_iff {ie8 : Bool} {p q : Program} {t : ScopeTree}
    (h : resolve ie8 p = .ok (q, t)) (id : Nat) :
    (∀ i, t.Encloses id i ↔ ∃ a ∈ q.sites ie8, a.declares = none ∧ a.id.symbol = some i ∧
      id ∈ t.ancestors a.scope ∧ ∃ s, t.symbols[i]? = some s ∧ s.scope ∈ t.ancestors id) ∧
    (t.pins id = true ↔ ∃ j, t.Looks ie8 q j ∧ id ∈ t.ancestors j) := by
  obtain ⟨d, hrun, ht, hlabel, hdeclares, -⟩ := runs_of_resolve h
  refine ⟨fun i => ?_, pins_iff_of_run hrun ht hlabel hdeclares id⟩
  rw [encloses_iff_of_run hrun ht hlabel]
  refine exists_congr fun a => and_congr_right fun ha => ?_
  rw [Site.scope, ancestors_of_chain (chain_of_run hrun ht hdeclares a ha)]
  simp [Site.Reaches, home?, Symbol.home]

/-- A function that gives its parameter to `eval`. -/
def evalCall : Program :=
  let name (text : String) : Ident := ⟨.nowhere, text, none⟩
  let call : Expr := .call .nowhere false false (.ident (name "eval")) [.ident (name "code")]
  ⟨.nowhere, .script, [.function ⟨.nowhere, some (name "f"), false, false, [.ident (name "code")],
    ⟨.nowhere, [.expr .nowhere call]⟩⟩], [], none, []⟩

/-- The parameter is enclosed in the function, whose names and those around it must stay. -/
theorem resolve_evalCall : ∃ q t, resolve false evalCall = .ok (q, t) ∧ t.pins 0 = true
    ∧ t.Encloses 1 1 ∧ t.Looks false q 1
    ∧ ∃ a s, (q.sites false)[1]? = some a ∧ a.id.name = "code" ∧ t.symbolOf? a.id = some s
      ∧ s.scope ∈ t.ancestors 1 := by
  have hrun : (resolve false evalCall).toOption.any (fun r =>
      r.2.pins 0 && r.2.scopes[1]?.any (·.enclosed.contains 1)
        && (r.1.sites false).any (·.evaluates r.2 1)
        && (r.1.sites false)[1]?.any fun a => a.id.name == "code"
          && (r.2.symbolOf? a.id).any fun s => (r.2.ancestors 1).contains s.scope) = true := by
    decide +kernel
  obtain ⟨⟨q, t⟩, h, hrun⟩ := exists_ok_of_any hrun
  simp only [Bool.and_eq_true, Option.any_eq_true, List.contains_iff_mem, beq_iff_eq] at hrun
  obtain ⟨⟨⟨hpins, hencloses⟩, hlooks⟩, a, ha, hname, s, hs, hscope⟩ := hrun
  exact ⟨q, t, h, hpins, hencloses, (looks_iff false t q 1).mpr (.inl hlooks), a, s, ha, hname, hs,
    hscope⟩

theorem encloses_iff_and_pins_iff_evalCall : ∃ q t, resolve false evalCall = .ok (q, t) ∧
    t.pins 0 = true ∧ (∃ j, t.Looks false q j ∧ 0 ∈ t.ancestors j) ∧ t.Encloses 1 1 ∧
    ∃ a ∈ q.sites false, a.declares = none ∧ a.id.symbol = some 1 ∧ 1 ∈ t.ancestors a.scope ∧
      ∃ s, t.symbols[1]? = some s ∧ s.scope ∈ t.ancestors 1 := by
  obtain ⟨q, t, h, hpins, hencloses, _⟩ := resolve_evalCall
  exact ⟨q, t, h, hpins, (encloses_iff_and_pins_iff h 0).2.mp hpins, hencloses,
    ((encloses_iff_and_pins_iff h 1).1 1).mp hencloses⟩

/-! ## Names that stay -/

namespace Naming

variable {o : RenameOptions} {t : ScopeTree} {i : Nat} {s : Symbol}

/-- A symbol of a pinned scope gets no new name, whatever earlier runs have named. -/
theorem newName?_of_pins (heval : o.eval = false) (hs : t.symbols[i]? = some s)
    (hpins : t.pins s.scope = true) (p : Program) (cache : Renaming) :
    newName? (renameVariables o p t cache).2.1 i = none := by
  have honly := renamesOnly_stageFrom o cache (alphabetFor p
    (t.symbols.mapIdx fun id s => if o.renames t id s then [s] else []).toList.flatten)
    (eligibleIn o t) (cleared t) (Nat.zero_le t.scopes.size)
  have hhome : t.home? i = some s.home := by
    rw [home?, hs]
    rfl
  refine (honly.newName? ?_).trans ?_
  · rintro ⟨id, -, hown⟩
    obtain ⟨-, -, -, heligible⟩ := mem_own.mp hown
    have hnot := not_pinned_of_eligible hhome heligible heval
    cases hpins.symm.trans hnot
  · show newName? (cleared t) i = none
    rw [newName?, getElem?_symbols_cleared, hs]
    rfl

end Naming

/-- Where `eval` or `with` is used, renaming changes no name that can be seen there: a name that is
bound to a symbol of that scope or of a scope around it stays as it is. -/
theorem seen_names_stay {o : RenameOptions} (heval : o.eval = false) {p q : Program} {t : ScopeTree}
    (h : resolve o.ie8 p = .ok (q, t)) (cache : Renaming) {id : Nat} (hlooks : t.Looks o.ie8 q id)
    {n : Nat} {a : Site} (ha : (q.sites o.ie8)[n]? = some a) {s : Symbol}
    (hs : t.symbolOf? a.id = some s) (hscope : s.scope ∈ t.ancestors id) :
    ((renameVariables o q t cache).1.sites o.ie8)[n]? = some a := by
  obtain ⟨d, hrun, ht, hlabel, hdeclares, -⟩ := runs_of_resolve h
  have hpins := (pins_iff_of_run hrun ht hlabel hdeclares s.scope).mpr ⟨id, hlooks, hscope⟩
  obtain ⟨i, hi, hs⟩ := Option.bind_eq_some_iff.mp hs
  have hnew := Naming.newName?_of_pins heval hs hpins q cache
  have hsame : Naming.renamedIdent (renameVariables o q t cache).2.1 a.id = a.id := by
    have hnone : ((renameVariables o q t cache).2.1.symbolOf? a.id).bind (·.newName) = none := by
      rw [symbolOf?, hi]
      exact hnew
    rw [Naming.renamedIdent, hnone]
  have hsites : (renameVariables o q t cache).1.sites o.ie8
      = (q.sites o.ie8).map (·.withIdent (Naming.renamedIdent (renameVariables o q t cache).2.1)) :=
    q.sites_mapIdents _ o.ie8
  rw [hsites, List.getElem?_map, ha, Option.map_some, Site.withIdent, hsame]

theorem seen_names_stay_evalCall : ∃ q t, resolve false evalCall = .ok (q, t) ∧
    t.Looks false q 1 ∧ ∃ a, (q.sites false)[1]? = some a ∧ a.id.name = "code" ∧
      ((renameVariables { toplevel := true } q t [("code", "c")]).1.sites false)[1]? = some a := by
  obtain ⟨q, t, h, _, _, hlooks, a, s, ha, hname, hs, hscope⟩ := resolve_evalCall
  exact ⟨q, t, h, hlooks, a, ha, hname,
    seen_names_stay (o := { toplevel := true }) rfl h _ hlooks ha hs hscope⟩

end Laconic
