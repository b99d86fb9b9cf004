import Laconic.Proofs.Scope.Label
import Laconic.Proofs.Tree.Parallel

/-!
# Trees that keep to a vocabulary

What a vocabulary says about a tree it says about the nodes of the tree, jumps and exports
apart (`Told`).  Where nothing is exported inside others, the events of a tree are about exports
only if the tree is itself exported (`Level`).
-/

namespace Laconic

/-! ## Exported names -/

namespace ScopeEvent

/-- Events after which exports are as they were, and which are about exported names only if they
are at the outermost level. -/
def Level (exported : Bool) (events : List ScopeEvent) : Prop :=
  ∀ depth, 0 < depth → (exported = true → depth = 1) → ∀ rest,
    exportsOutermost depth (events ++ rest) = exportsOutermost depth rest

namespace Level

variable {a b : List ScopeEvent} {exported lexical : Bool} {loc : Span}

theorem nil : Level exported [] := fun _ _ _ _ => rfl

theorem append (h : Level exported a) (h' : Level exported b) : Level exported (a ++ b) := by
  intro depth hdepth hexported rest
  rw [List.append_assoc, h depth hdepth hexported, h' depth hdepth hexported]

theorem any (h : Level false a) : Level exported a := fun depth hdepth _ => h depth hdepth nofun

theorem declare (id : Ident) (kind : BindingKind) (loop : Bool) :
    Level exported [.declare id kind exported loop] := by
  intro depth _ hexported rest
  cases exported with
  | false => rfl
  | true =>
    cases hexported rfl
    rfl

theorem refer (id : Ident) (access : Access) : Level exported [.refer id access false] :=
  fun _ _ _ _ => rfl

theorem exportedRefer (id : Ident) (access : Access) : Level true [.refer id access true] := by
  intro depth _ hdepth rest
  cases hdepth rfl
  rfl

theorem within (h : Level false a) {kind : ScopeKind} {strict : Bool} :
    Level exported (ScopeEvent.within kind loc strict a) := by
  intro depth _ _ rest
  have hinner := h (depth + 1) (Nat.succ_pos depth) nofun (.leave :: rest)
  show exportsOutermost (depth + 1) (a ++ [.leave] ++ rest) = _
  rw [List.append_assoc]
  exact hinner

theorem loopScope (h : Level false a) : Level exported (ScopeEvent.loopScope lexical loc a) := by
  unfold ScopeEvent.loopScope
  split
  · exact h.within
  · exact h.any

theorem optDeclare (id : Option Ident) (kind : BindingKind) :
    Level exported (ScopeEvent.optDeclare id kind exported) := by
  cases id with
  | none => exact nil
  | some id => exact declare id kind false

end Level

end ScopeEvent

open ScopeEvent (Level)

namespace Vocabulary

variable {v : Vocabulary} {t : Targets}

/-! ## Events and nodes -/

/-- What it means to keep to a vocabulary for something with events and nodes. -/
structure Told (v : Vocabulary) (exported : Bool) (P : Prop) (events : List ScopeEvent)
    (nodes : List Node) : Prop where
  own : P → ∀ n ∈ nodes, v.own n
  lists : P → ∀ kind list, .body kind list ∈ nodes → ∃ t, v.stmts t list
  /-- Where neither jumps nor exports are restricted, the nodes say all. -/
  of : v.exports → ¬v.jumps → (∀ n ∈ nodes, v.own n) → P
  level : ¬v.exports → P → Level exported events

section Events

variable {a b c d : List ScopeEvent} {ie8 : Bool}

section Parts

variable {exported : Bool}

namespace Told

variable {P Q : Prop} {ns ms : List Node} {n : Node}

theorem nil : v.Told exported True [] [] :=
  ⟨fun _ => nofun, fun _ _ _ => nofun, fun _ _ _ => trivial, fun _ _ => .nil⟩

theorem congr (h : v.Told exported P a ns) (hiff : P ↔ Q) : v.Told exported Q a ns :=
  propext hiff ▸ h

/-- The same nodes with other events. -/
theorem changed {before : Bool} (h : v.Told before P a ns)
    (hlevel : ¬v.exports → P → Level exported b) : v.Told exported P b ns :=
  ⟨h.own, h.lists, h.of, hlevel⟩

theorem append (h : v.Told exported P a ns) (h' : v.Told exported Q b ms) :
    v.Told exported (P ∧ Q) (a ++ b) (ns ++ ms) where
  own hP := List.forall_mem_append.mpr ⟨h.own hP.1, h'.own hP.2⟩
  lists hP kind list hmem :=
    (List.mem_append.mp hmem).elim (h.lists hP.1 kind list) (h'.lists hP.2 kind list)
  of hexports hjumps hall :=
    ⟨h.of hexports hjumps (List.forall_mem_append.mp hall).1,
      h'.of hexports hjumps (List.forall_mem_append.mp hall).2⟩
  level hexports hP := (h.level hexports hP.1).append (h'.level hexports hP.2)

/-- A node of which the vocabulary says something before its parts. -/
theorem owned (h : v.Told exported P a ns) (hpart : n.isPart = true := by rfl) :
    v.Told exported (v.own n ∧ P) a (n :: ns) where
  own hP := List.forall_mem_cons.mpr (hP.imp_right h.own)
  lists hP kind list hmem := by
    rcases List.mem_cons.mp hmem with rfl | hmem
    · cases hpart
    · exact h.lists hP.2 kind list hmem
  of hexports hjumps hall :=
    have hall := List.forall_mem_cons.mp hall
    ⟨hall.1, h.of hexports hjumps hall.2⟩
  level hexports hP := h.level hexports hP.2

theorem part (h : v.Told exported P a ns) (hown : v.own n := by exact trivial)
    (hpart : n.isPart = true := by rfl) : v.Told exported P a (n :: ns) :=
  (h.owned hpart).congr (and_iff_right hown)

/-- A list of statements before what is in it. -/
theorem list {body : List Stmt} (h : v.Told exported (v.stmts t body) a ns) {kind : BodyKind} :
    v.Told exported (v.stmts t body) a (.body kind body :: ns) where
  own hP := List.forall_mem_cons.mpr ⟨trivial, h.own hP⟩
  lists hP kind' list hmem := by
    rcases List.mem_cons.mp hmem with heq | hmem
    · cases heq
      exact ⟨t, hP⟩
    · exact h.lists hP kind' list hmem
  of hexports hjumps hall := h.of hexports hjumps (List.forall_mem_cons.mp hall).2
  level := h.level

theorem any (h : v.Told false P a ns) : v.Told exported P a ns :=
  h.changed fun hexports hP => (h.level hexports hP).any

theorem inside (h : v.Told false P a ns) {kind : ScopeKind} {loc : Span} {strict : Bool} :
    v.Told exported P (ScopeEvent.within kind loc strict a) ns :=
  h.changed fun hexports hP => (h.level hexports hP).within

theorem after (h : v.Told exported True a ns) (h' : v.Told exported P b ms) :
    v.Told exported P (a ++ b) (ns ++ ms) :=
  (h.append h').congr (iff_of_eq (true_and P))

/-- Nodes that are names. -/
theorem names (h : ∀ n ∈ ns, ∃ id, n = .ident id) (hlevel : Level exported a) :
    v.Told exported True a ns where
  own _ n hn := by
    obtain ⟨id, rfl⟩ := h n hn
    trivial
  lists _ kind list hn := by
    obtain ⟨id, heq⟩ := h _ hn
    cases heq
  of _ _ _ := trivial
  level _ _ := hlevel

theorem optIdent (id : Option Ident) : v.Told exported True [] (Nodes.optIdent id) := by
  cases id with
  | none => exact nil
  | some id => exact names (by simp [Nodes.optIdent]) .nil

theorem declared (h : v.Told exported P a ns) (id : Option Ident) (kind : BindingKind) :
    v.Told exported P (ScopeEvent.optDeclare id kind exported ++ a) ns :=
  h.changed fun hexports hP => (ScopeEvent.Level.optDeclare id kind).append (h.level hexports hP)

end Told

/-- Events and nodes that say what it means to keep to a vocabulary, and that are listed along
the same way. -/
structure Shown (v : Vocabulary) (ie8 exported : Bool) (P : Prop) (events : List ScopeEvent)
    (nodes : List Node) : Prop where
  told : v.Told exported P events nodes
  meets : Meets ie8 true nodes events

/-- Events and nodes of something that keeps to a vocabulary if it has a property. -/
abbrev Shows {α : Type} (v : Vocabulary) (ie8 exported : Bool) (P : α → Prop)
    (events : α → List ScopeEvent) (nodes : α → List Node) (x : α) : Prop :=
  v.Shown ie8 exported (P x) (events x) (nodes x)

namespace Shown

variable {P Q R S : Prop} {ns ms ks ls : List Node} {n : Node}
variable {kind : ScopeKind} {loc : Span}

theorem nil : v.Shown ie8 exported True [] [] := ⟨.nil, .nil⟩

theorem congr (h : v.Shown ie8 exported P a ns) (hiff : P ↔ Q) : v.Shown ie8 exported Q a ns :=
  ⟨h.told.congr hiff, h.meets⟩

theorem part (h : v.Shown ie8 exported P a ns) (hown : v.own n := by exact trivial)
    (hpart : n.isPart = true := by rfl) : v.Shown ie8 exported P a (n :: ns) :=
  ⟨h.told.part hown hpart, h.meets.cons hpart⟩

theorem list {body : List Stmt} {kind : BodyKind}
    (h : v.Shown ie8 exported (v.stmts t body) (ScopeEvent.stmts ie8 body) (Nodes.stmts body)) :
    v.Shown ie8 exported (v.stmts t body) (ScopeEvent.stmts ie8 body)
      (.body kind body :: Nodes.stmts body) :=
  ⟨h.told.list, h.meets.body kind⟩

theorem append (h : v.Shown ie8 exported P a ns) (h' : v.Shown ie8 exported Q b ms) :
    v.Shown ie8 exported (P ∧ Q) (a ++ b) (ns ++ ms) :=
  ⟨h.told.append h'.told, h.meets.append h'.meets⟩

theorem three (h : v.Shown ie8 exported P a ns) (h' : v.Shown ie8 exported Q b ms)
    (h'' : v.Shown ie8 exported R c ks) :
    v.Shown ie8 exported (P ∧ Q ∧ R) (a ++ b ++ c) (ns ++ ms ++ ks) :=
  ((h.append h').append h'').congr and_assoc

theorem four (h : v.Shown ie8 exported P a ns) (h' : v.Shown ie8 exported Q b ms)
    (h'' : v.Shown ie8 exported R c ks) (h₄ : v.Shown ie8 exported S d ls) :
    v.Shown ie8 exported (P ∧ Q ∧ R ∧ S) (a ++ b ++ c ++ d) (ns ++ ms ++ ks ++ ls) :=
  ((h.append h').three h'' h₄).congr and_assoc

theorem regroup (h : v.Shown ie8 exported P (a ++ (b ++ c)) ns) :
    v.Shown ie8 exported P (a ++ b ++ c) ns :=
  List.append_assoc a b c ▸ h

theorem inside (h : v.Shown ie8 false P a ns) {strict : Bool} :
    v.Shown ie8 exported P (ScopeEvent.within kind loc strict a) ns :=
  ⟨h.told.inside, h.meets.within kind loc strict⟩

theorem loopScope (h : v.Shown ie8 false P a ns) {lexical : Bool} :
    v.Shown ie8 exported P (ScopeEvent.loopScope lexical loc a) ns :=
  ⟨h.told.changed fun hexports hP => (h.told.level hexports hP).loopScope,
    h.meets.loopScope lexical loc⟩

theorem any (h : v.Shown ie8 false P a ns) : v.Shown ie8 exported P a ns := ⟨h.told.any, h.meets⟩

/-- What a statement holds that imports or exports. -/
theorem exporting (h : v.Shown ie8 true P a ns) : v.Shown ie8 exported (v.exports ∧ P) a ns where
  told :=
    { own := fun hP => h.told.own hP.2
      lists := fun hP => h.told.lists hP.2
      of := fun hexports hjumps hall => ⟨hexports, h.told.of hexports hjumps hall⟩
      level := fun hexports hP => absurd hP.1 hexports }
  meets := h.meets

theorem this : v.Shown ie8 exported True [.this] [] :=
  ⟨.names nofun fun _ _ _ _ => rfl, fun _ _ => .this⟩

theorem refer (id : Ident) (access : Access) :
    v.Shown ie8 exported True [.refer id access false] [.ident id] :=
  ⟨.names (by simp) (.refer id access), .refer id access false⟩

theorem declare (id : Ident) (kind : BindingKind) (loop : Bool) :
    v.Shown ie8 exported True [.declare id kind exported loop] [.ident id] :=
  ⟨.names (by simp) (.declare id kind loop), .declare id kind exported loop⟩

theorem imports (xs : List ImportSpecifier) :
    v.Shown ie8 true True (xs.map ScopeEvent.importSpecifier) (xs.map Nodes.importSpecifier) := by
  refine ⟨.names ?_ ?_, meets_imports ie8 xs⟩
  · intro n hn
    obtain ⟨x, _, rfl⟩ := List.mem_map.mp hn
    cases x <;> exact ⟨_, rfl⟩
  · induction xs with
    | nil => exact .nil
    | cons x rest ih =>
      have hone : Level true [ScopeEvent.importSpecifier x] := by
        cases x <;> exact fun _ _ _ _ => rfl
      exact hone.append ih

theorem exports (xs : List ExportSpecifier) :
    v.Shown ie8 true True (xs.flatMap ScopeEvent.exportSpecifier)
      (xs.flatMap Nodes.exportSpecifier) := by
  refine ⟨.names ?_ ?_, meets_exports ie8 xs⟩
  · intro n hn
    obtain ⟨⟨name, exported⟩, _, hn⟩ := List.mem_flatMap.mp hn
    cases name with
    | ident id => exact ⟨id, List.mem_singleton.mp hn⟩
    | str lit => cases hn
  · induction xs with
    | nil => exact .nil
    | cons x rest ih =>
      have hone : Level true (ScopeEvent.exportSpecifier x) := by
        obtain ⟨name, exported⟩ := x
        cases name with
        | ident id => exact .exportedRefer id .read
        | str lit => exact .nil
      exact hone.append ih

theorem update {e : Expr} (h : v.Shown ie8 exported P (ScopeEvent.expr ie8 e) (Nodes.expr e))
    (op : UpdateOp) (before : Bool) :
    v.Shown ie8 exported P (ScopeEvent.expr ie8 (.update loc op before e)) (Nodes.expr e) := by
  refine ⟨h.told.changed fun hexports hP => ?_, meets_update ie8 loc op before h.meets⟩
  cases he : e.isName with
  | false =>
    rw [expr_update he]
    exact h.told.level hexports hP
  | true =>
    obtain ⟨id, rfl⟩ := exists_ident_of_isName he
    exact .refer id .readWrite

theorem assign {target e : Expr} (op : AssignOp)
    (h : v.Shown ie8 exported P (ScopeEvent.expr ie8 target) (Nodes.expr target))
    (h' : v.Shown ie8 exported Q (ScopeEvent.expr ie8 e) (Nodes.expr e)) :
    v.Shown ie8 exported (P ∧ Q) (ScopeEvent.expr ie8 (.assign loc op (.expr target) e))
      (Nodes.expr target ++ Nodes.expr e) := by
  rw [expr_assign]
  refine .append ⟨h.told.changed fun hexports hP => ?_, meets_assigned ie8 op h.meets⟩ h'
  cases hname : target.isName with
  | false =>
    rw [assignTarget_eq (p := .expr target) hname]
    exact h.told.level hexports hP
  | true =>
    obtain ⟨id, rfl⟩ := exists_ident_of_isName hname
    exact .refer id (ScopeEvent.assignAccess op)

end Shown

/-- A property or a member before others. -/
theorem shown_cons {P Q R : Prop} {ns ms ks : List Node} {unnamed unnamed' : Bool}
    (h : v.Shown ie8 exported P a ns) (ht : v.Told exported Q b ms) (hm : Meets ie8 unnamed ms b)
    (hrest : v.Told exported R c ks ∧ Meets ie8 unnamed' ks c) :
    v.Told exported (P ∧ Q ∧ R) (a ++ b ++ c) (ns ++ ms ++ ks)
      ∧ Meets ie8 (unnamed && unnamed') (ns ++ ms ++ ks) (a ++ b ++ c) :=
  ⟨.congr (.append (.append h.told ht) hrest.1) and_assoc, (h.meets.append hm).append hrest.2⟩

end Parts

mutual

theorem shown_expr {exported : Bool} :
    ∀ e, v.Shows ie8 exported v.expr (ScopeEvent.expr ie8) Nodes.expr e
  | .null _ | .bool .. | .num .. | .str _ | .bigint .. | .regexp .. | .super _
  | .metaProperty .. => .part .nil
  | .this _ => .part .this
  | .ident id => .part (.refer id .read)
  | .template _ _ es | .sequence _ es => .part (shown_exprs es)
  | .array _ es => .part (shown_elements es)
  | .object loc ps =>
    have h := shown_properties ps
    ⟨h.1.owned (n := .expr (.object loc ps)), .node rfl h.2⟩
  | .function f => by
    obtain ⟨htold, hmeets⟩ := shown_func f
    show v.Shown ie8 exported _ (ScopeEvent.expr ie8 (.function f)) _
    rw [ScopeEvent.expr]
    split
    · exact .part ⟨((htold none).declared f.id .var).any, hmeets (.before .var false)⟩
    · exact .part ⟨(htold f.id).any, hmeets .inside⟩
  | .arrow a => .part (shown_arrow a)
  | .class c => .part ⟨((shown_class c).1 c.id).any, (shown_class c).2 .inside nofun⟩
  | .unary _ _ e | .chain _ e | .spread _ e | .await _ e => .part (shown_expr e)
  | .update _ op before e => .part (.update (shown_expr e) op before)
  | .binary _ _ l r | .logical _ _ l r => .part (.append (shown_expr l) (shown_expr r))
  | .conditional _ t c a => .part (.three (shown_expr t) (shown_expr c) (shown_expr a))
  | .assign _ op (.expr p) e => .part (.assign op (shown_expr p) (shown_expr e))
  | .assign _ _ (.ident id) e => .part (.append (.part (.refer id .write)) (shown_expr e))
  | .assign _ _ (.array _ ps) e =>
    .part (.append (.part (shown_targetElements ps)) (shown_expr e))
  | .assign _ _ (.object _ ps) e =>
    .part (.append (.part (shown_targetProperties ps)) (shown_expr e))
  | .assign _ _ (.rest _ p) e => .part (.append (.part (shown_target p)) (shown_expr e))
  | .assign _ _ (.assign _ p value) e =>
    .part (.append (.part (.append (shown_target p) (shown_expr value))) (shown_expr e))
  | .member _ _ o k => .part (.append (shown_expr o) (shown_member k))
  | .call _ _ _ e es | .new _ _ e es | .tagged _ e _ _ es =>
    .part (.append (shown_expr e) (shown_exprs es))
  | .yield _ _ e => .part (shown_optExpr e)
  | .importCall _ e options => .part (.append (shown_expr e) (shown_optExpr options))

theorem shown_optExpr {exported : Bool} :
    ∀ e, v.Shows ie8 exported v.optExpr (ScopeEvent.optExpr ie8) Nodes.optExpr e
  | some e => shown_expr e
  | none => .nil

theorem shown_exprs {exported : Bool} :
    ∀ es, v.Shows ie8 exported v.exprs (ScopeEvent.exprs ie8) Nodes.exprs es
  | [] => .nil
  | e :: rest => .append (shown_expr e) (shown_exprs rest)

theorem shown_elements {exported : Bool} :
    ∀ es, v.Shows ie8 exported v.elements (ScopeEvent.elements ie8) Nodes.elements es
  | [] => .nil
  | some e :: rest => .append (shown_expr e) (shown_elements rest)
  | none :: rest => shown_elements rest

theorem shown_member {exported : Bool} :
    ∀ k, v.Shows ie8 exported v.propName (ScopeEvent.propName ie8) Nodes.member k
  | .computed e => shown_expr e
  | .ident _ | .privateName .. | .str _ | .num .. => .nil

theorem shown_propName {exported : Bool} :
    ∀ k, v.Shows ie8 exported v.propName (ScopeEvent.propName ie8) Nodes.propName k
  | .computed e => .part (shown_expr e)
  | .ident _ | .privateName .. | .str _ | .num .. => .part .nil

theorem shown_properties {exported : Bool} : ∀ ps : List Property,
    v.Told exported (v.properties ps) (ScopeEvent.properties ie8 ps) (Nodes.properties ps)
      ∧ Meets ie8 (ps.all Property.methodUnnamed) (Nodes.properties ps)
        (ScopeEvent.properties ie8 ps)
  | [] => ⟨.nil, .nil⟩
  | .value _ key e :: rest =>
    have he := shown_expr e
    shown_cons (shown_propName key) he.told he.meets (shown_properties rest)
  | .getter _ key f :: rest | .setter _ key f :: rest | .method _ key f :: rest =>
    shown_cons (shown_propName key) ((shown_func f).1 none).any ((shown_func f).2 .nowhere)
      (shown_properties rest)
  | .spread _ e :: rest =>
    have he := shown_expr e
    have hrest := shown_properties rest
    ⟨he.told.append hrest.1, he.meets.append hrest.2⟩

theorem shown_func : ∀ f : Func,
    (∀ name, v.Told false (v.func f) (ScopeEvent.func ie8 name f) (Nodes.func f))
      ∧ ∀ use : NameUse, Meets ie8 (use.meets f.id) (Nodes.func f) (funcView ie8 use f).events
  | ⟨loc, id, isAsync, isGenerator, ps, ⟨bodyLoc, body⟩⟩ => by
    have hps := shown_params ps
    have hbody : v.Shows ie8 false (v.stmts {}) (ScopeEvent.stmts ie8) Nodes.stmts body :=
      shown_stmts body
    refine ⟨fun name => ?_, fun use => meets_func_of_parts ie8 use hps.meets hbody.meets⟩
    refine Told.owned (n := .func ⟨loc, id, isAsync, isGenerator, ps, ⟨bodyLoc, body⟩⟩) (.inside
      (.changed (.append (.after (.optIdent id) hps.told) hbody.told.list) fun hexports h => ?_))
    exact ((ScopeEvent.Level.optDeclare name .functionName).append
      (hps.told.level hexports h.1)).append (hbody.told.level hexports h.2)

theorem shown_arrow {exported : Bool} :
    ∀ a, v.Shows ie8 exported v.arrow (ScopeEvent.arrow ie8) Nodes.arrow a
  | ⟨_, _, ps, .block ⟨_, body⟩⟩ =>
    .part (.inside (.append (shown_params ps) (shown_stmts body).list))
  | ⟨_, _, ps, .expr e⟩ => .part (.inside (.append (shown_params ps) (shown_expr e)))

theorem shown_class : ∀ c : ClassDef,
    (∀ name, v.Told false (v.classDef c) (ScopeEvent.classDef ie8 name c) (Nodes.classDef c))
      ∧ ∀ use, use ≠ .nowhere → Meets ie8 true (Nodes.classDef c) (classView ie8 use c).events
  | ⟨loc, id, superClass, body⟩ => by
    have hsuper : v.Shows ie8 false v.optExpr (ScopeEvent.optExpr ie8) Nodes.optExpr superClass :=
      shown_optExpr superClass
    have hbody := shown_members body
    refine ⟨fun name => ?_, fun _ hname => meets_class_of_parts ie8 hname hsuper.meets hbody.2⟩
    refine Told.owned (n := .class ⟨loc, id, superClass, body⟩) (.inside
      (.changed (.append (.after (.optIdent id) hsuper.told) hbody.1) fun hexports h => ?_))
    exact ((ScopeEvent.Level.optDeclare name .className).append
      (hsuper.told.level hexports h.1)).append (hbody.1.level hexports h.2)

theorem shown_members : ∀ ms : List Member,
    v.Told false (v.members ms) (ScopeEvent.members ie8 ms) (Nodes.members ms)
      ∧ Meets ie8 (ms.all Member.methodUnnamed) (Nodes.members ms) (ScopeEvent.members ie8 ms)
  | [] => ⟨.nil, .nil⟩
  | .method _ _ _ key f :: rest =>
    shown_cons (shown_propName key) ((shown_func f).1 none) ((shown_func f).2 .nowhere)
      (shown_members rest)
  | .property _ _ key e :: rest =>
    have he := shown_optExpr e
    shown_cons (shown_propName key) he.told he.meets (shown_members rest)
  | .staticBlock _ body :: rest =>
    have hbody := (shown_stmts body).list.inside
    have hrest := shown_members rest
    ⟨hbody.told.append hrest.1, hbody.meets.append hrest.2⟩

theorem shown_binding (kind : BindingKind) {exported loop : Bool} :
    ∀ p, v.Shows ie8 exported v.pat (ScopeEvent.bindingPat ie8 kind exported loop) Nodes.pat p
  | .ident id => .part (.declare id kind loop)
  | .array _ ps => .part (shown_bindingElements kind ps)
  | .object _ ps => .part (shown_bindingProperties kind ps)
  | .rest _ p => .part (shown_binding kind p)
  | .assign _ p e => .part (.append (shown_binding kind p) (shown_expr e))
  | .expr e => .part (shown_expr e)

theorem shown_bindingElements (kind : BindingKind) {exported loop : Bool} :
    ∀ ps, v.Shows ie8 exported v.patElements (ScopeEvent.bindingElements ie8 kind exported loop)
      Nodes.patElements ps
  | [] => .nil
  | some p :: rest => .append (shown_binding kind p) (shown_bindingElements kind rest)
  | none :: rest => shown_bindingElements kind rest

theorem shown_bindingProperties (kind : BindingKind) {exported loop : Bool} :
    ∀ ps, v.Shows ie8 exported v.patProperties
      (ScopeEvent.bindingProperties ie8 kind exported loop) Nodes.patProperties ps
  | [] => .nil
  | .keyValue _ key p :: rest =>
    .three (shown_propName key) (shown_binding kind p) (shown_bindingProperties kind rest)
  | .rest _ p :: rest => .append (shown_binding kind p) (shown_bindingProperties kind rest)

theorem shown_params : ∀ ps, v.Shows ie8 false v.pats (ScopeEvent.params ie8) Nodes.pats ps
  | [] => .nil
  | p :: rest => .append (shown_binding .param p) (shown_params rest)

theorem shown_target {exported : Bool} :
    ∀ p, v.Shows ie8 exported v.pat (ScopeEvent.targetPat ie8) Nodes.pat p
  | .ident id => .part (.refer id .write)
  | .array _ ps => .part (shown_targetElements ps)
  | .object _ ps => .part (shown_targetProperties ps)
  | .rest _ p => .part (shown_target p)
  | .assign _ p e => .part (.append (shown_target p) (shown_expr e))
  | .expr e => .part (shown_expr e)

theorem shown_targetElements {exported : Bool} :
    ∀ ps, v.Shows ie8 exported v.patElements (ScopeEvent.targetElements ie8) Nodes.patElements ps
  | [] => .nil
  | some p :: rest => .append (shown_target p) (shown_targetElements rest)
  | none :: rest => shown_targetElements rest

theorem shown_targetProperties {exported : Bool} :
    ∀ ps, v.Shows ie8 exported v.patProperties (ScopeEvent.targetProperties ie8)
      Nodes.patProperties ps
  | [] => .nil
  | .keyValue _ key p :: rest =>
    .three (shown_propName key) (shown_target p) (shown_targetProperties rest)
  | .rest _ p :: rest => .append (shown_target p) (shown_targetProperties rest)

theorem shown_varDecl {exported loop : Bool} :
    ∀ d, v.Shows ie8 exported v.varDecl (ScopeEvent.varDecl ie8 exported loop) Nodes.varDecl d
  | ⟨_, kind, ds⟩ => shown_declarators (.ofVarKind kind) ds

theorem shown_declarators (kind : BindingKind) {exported loop : Bool} :
    ∀ ds, v.Shows ie8 exported v.declarators (ScopeEvent.declarators ie8 kind exported loop)
      Nodes.declarators ds
  | [] => .nil
  | ⟨_, p, e⟩ :: rest =>
    .three (shown_binding kind p) (shown_optExpr e) (shown_declarators kind rest)

theorem shown_forInit : ∀ i, v.Shows ie8 false v.forInit (ScopeEvent.forInit ie8) Nodes.forInit i
  | .none => .nil
  | .decl d => shown_varDecl d
  | .expr e => shown_expr e

theorem shown_forTarget :
    ∀ t, v.Shows ie8 false v.forTarget (ScopeEvent.forTarget ie8) Nodes.forTarget t
  | .decl d => shown_varDecl d
  | .pat p => shown_target p

theorem shown_switchCases {t : Targets} :
    ∀ cs, v.Shows ie8 false (v.switchCases t) (ScopeEvent.switchCases ie8) Nodes.switchCases cs
  | [] => .nil
  | ⟨_, test, body⟩ :: rest =>
    .regroup ((shown_optExpr test).append ((shown_stmts body).list.append (shown_switchCases rest)))

theorem shown_block {t : Targets} {exported : Bool} :
    ∀ b, v.Shows ie8 exported (v.block t) (ScopeEvent.block ie8) Nodes.block b
  | ⟨_, body⟩ => (shown_stmts body).list.inside

theorem shown_handler {t : Targets} {exported : Bool} :
    ∀ h, v.Shows ie8 exported (v.handler t) (ScopeEvent.handler ie8) Nodes.handler h
  | none => .nil
  | some ⟨_, param, ⟨_, body⟩⟩ => .inside (.append (shown_optParam param) (shown_stmts body).list)

theorem shown_optParam :
    ∀ p, v.Shows ie8 false v.optParam (ScopeEvent.optParam ie8) Nodes.optPat p
  | none => .nil
  | some p => shown_binding _ p

theorem shown_optBlock {t : Targets} {exported : Bool} :
    ∀ b, v.Shows ie8 exported (v.optBlock t) (ScopeEvent.optBlock ie8) Nodes.optBlock b
  | none => .nil
  | some b => shown_block b

theorem shown_stmt {t : Targets} {exported : Bool} :
    ∀ s, v.Shows ie8 exported (v.stmt t) (ScopeEvent.stmt ie8 exported) Nodes.stmt s
  | .block b => .part (shown_block b)
  | .varDecl d => .part (shown_varDecl d)
  | .function f =>
    .part ⟨((shown_func f).1 none).any.declared f.id .function,
      (shown_func f).2 (.before .function _)⟩
  | .class c =>
    .part ⟨((shown_class c).1 none).any.declared c.id .class,
      (shown_class c).2 (.before .class _) nofun⟩
  | .expr _ e | .throw _ e => .part (shown_expr e)
  | .if _ test c a => .part (.three (shown_expr test) (shown_stmt c).any (shown_optStmt a))
  | .for _ init test update body =>
    .part (.loopScope (.four (shown_forInit init) (shown_optExpr test) (shown_optExpr update)
      (shown_stmt body)))
  | .forIn _ target e body | .forOf _ _ target e body =>
    .part (.loopScope (.three (shown_forTarget target) (shown_expr e) (shown_stmt body)))
  | .while _ test body => .part (.append (shown_expr test) (shown_stmt body).any)
  | .doWhile _ body test =>
    .part (.congr (.append (shown_stmt body).any (shown_expr test)) and_comm)
  | .switch _ e cases => .part (.append (shown_expr e) (shown_switchCases cases).inside)
  | .try _ b handler final =>
    .part (.three (shown_block b) (shown_handler handler) (shown_optBlock final))
  | .return _ e => .part (shown_optExpr e)
  | .labeled _ _ body => .part (shown_stmt body).any
  | .with _ e body => .part (.append (shown_expr e) (shown_stmt body).inside)
  | .break .. | .continue .. =>
    .part ⟨⟨fun _ => nofun, fun _ _ _ => nofun, fun _ hv _ hjumps => absurd hjumps hv,
      fun _ _ => .nil⟩, .nil⟩
  | .debugger _ | .empty _ | .directive .. => .part .nil
  | .importDecl _ specifiers _ =>
    .part ((Shown.imports specifiers).exporting.congr (iff_of_eq (and_true _)))
  | .exportNamed _ specifiers none =>
    .part ((Shown.exports specifiers).exporting.congr (iff_of_eq (and_true _)))
  | .exportNamed _ _ (some _) | .exportAll .. =>
    .part (Shown.nil.exporting.congr (iff_of_eq (and_true _)))
  | .exportDecl _ body => .part (shown_stmt body).exporting
  | .exportFunction _ f =>
    .part (.exporting ⟨((shown_func f).1 none).any.declared f.id .function,
      (shown_func f).2 (.before .function true)⟩)
  | .exportClass _ c =>
    .part (.exporting ⟨((shown_class c).1 none).any.declared c.id .class,
      (shown_class c).2 (.before .class true) nofun⟩)
  | .exportExpr _ e => .part (shown_expr e).exporting

theorem shown_optStmt {t : Targets} {exported : Bool} :
    ∀ s, v.Shows ie8 exported (v.optStmt t) (ScopeEvent.optStmt ie8) Nodes.optStmt s
  | some s => (shown_stmt s).any
  | none => .nil

theorem shown_stmts {t : Targets} :
    ∀ body, v.Shows ie8 false (v.stmts t) (ScopeEvent.stmts ie8) Nodes.stmts body
  | [] => .nil
  | s :: rest => .append (shown_stmt s) (shown_stmts rest)

end

/-- The events of a program tell what vocabulary it keeps to. -/
theorem told_program (t : Targets) (ie8 : Bool) (p : Program) :
    v.Told false (v.stmts t p.body) (p.innerEvents ie8) p.nodes :=
  (shown_stmts p.body).told.list

/-- An outermost statement exports at the outermost level. -/
theorem level_of_item (hexports : ¬v.exports) {s : Stmt} (h : v.item s) :
    Level true (ScopeEvent.stmt ie8 false s) := by
  cases s with
  | importDecl loc specifiers source =>
    have hshown : v.Shown ie8 true True _ _ := .imports specifiers
    exact hshown.told.level hexports trivial
  | exportNamed loc specifiers source =>
    cases source with
    | none =>
      have hshown : v.Shown ie8 true True _ _ := .exports specifiers
      exact hshown.told.level hexports trivial
    | some source => exact .nil
  | exportAll => exact .nil
  | exportDecl loc body => exact (shown_stmt body).told.level hexports h
  | exportFunction loc f =>
    exact (((shown_func f).1 none).any.declared f.id .function).level hexports h
  | exportClass loc c =>
    exact (((shown_class c).1 none).any.declared c.id .class).level hexports h
  | exportExpr loc e => exact (shown_expr e).told.level hexports h
  | _ => exact ((shown_stmt _).told.level hexports h).any

end Events

end Vocabulary

namespace Program

variable {p : Program} {v : Vocabulary}

/-- The vocabulary of programs in which methods have no names. -/
@[reducible] def unnamedMethods : Vocabulary where
  function _ := True
  unnamed := True
  jumps := False
  exports := True

theorem methodsUnnamed_iff {p : Program} :
    p.methodsUnnamed = true ↔ unnamedMethods.stmts {} p.body := by
  have htold := unnamedMethods.told_program {} false p
  have hown : ∀ n : Node, unnamedMethods.own n ↔ n.methodsUnnamed = true := by
    intro n
    cases n with
    | expr e => cases e <;> simp [Vocabulary.own, Node.methodsUnnamed]
    | _ => simp [Vocabulary.own, Node.methodsUnnamed]
  rw [methodsUnnamed, List.all_eq_true]
  constructor
  · exact fun h => htold.of trivial id fun n hn => (hown n).mpr (h n hn)
  · exact fun h n hn => (hown n).mp (htold.own h n hn)

/-- The nodes of a program and its events are listed along the same way. -/
theorem meets_program (ie8 : Bool) (p : Program) : Meets ie8 true p.nodes (p.innerEvents ie8) :=
  (Vocabulary.shown_stmts (v := unnamedMethods) (t := {}) p.body).meets.body .program

/-- Each name of a program is met on the way through it. -/
def Met (ie8 : Bool) (p : Program) : Prop := ScopeEvent.idents (p.innerEvents ie8) = p.idents

/-- Without names of methods, all names of a program are met on the way through it. -/
theorem met_of_methodsUnnamed (h : p.methodsUnnamed = true) (ie8 : Bool) : p.Met ie8 :=
  (meets_program ie8 p False fun hall => by
    rw [Bool.true_and, ← methodsUnnamed, h] at hall
    cases hall).idents_eq id

theorem exportsOutermost_of_items (hexports : ¬v.exports) (h : ∀ s ∈ p.body, v.item s)
    (ie8 : Bool) : p.exportsOutermost ie8 = true := by
  have hlevel : ∀ body : List Stmt, (∀ s ∈ body, v.item s) →
      Level true (ScopeEvent.stmts ie8 body) := by
    intro body h
    induction body with
    | nil => exact .nil
    | cons s rest ih =>
      exact (Vocabulary.level_of_item hexports (h s List.mem_cons_self)).append
        (ih fun s hs => h s (List.mem_cons_of_mem _ hs))
  have hrun := hlevel p.body h 1 Nat.one_pos (fun _ => rfl) []
  rw [List.append_nil] at hrun
  exact hrun

end Program

end Laconic
