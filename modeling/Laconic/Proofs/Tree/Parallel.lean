import Laconic.Proofs.Tree.Idents
import Laconic.Proofs.Tree.Vocabulary

/-!
# Nodes and events side by side

The nodes of a tree and its events are listed along the same way through it
(`Parallel`), so what is said of both lists at once is proved by going along them and
not by going through all kinds of nodes again.

There is one exception.  The function of a method may have a name of its own in a
tree, and no event is about that name.  The syntax has no such methods: what is written
before the parameters of a method is the name of a property.
-/

namespace Laconic

open ScopeEvent Nodes

/-! ## Along both lists -/

/-- Whether a node is neither an identifier nor a list of statements. -/
def Node.isPart : Node → Bool
  | .ident _ | .body .. => false
  | _ => true

/-- Nodes and events that are listed along the same way.  Methods have names of their own
only if they are `named`. -/
inductive Parallel (ie8 : Bool) (named : Prop) : List Node → List ScopeEvent → Prop where
  | nil : Parallel ie8 named [] []
  | append {nodes nodes' : List Node} {events events' : List ScopeEvent} :
      Parallel ie8 named nodes events → Parallel ie8 named nodes' events' →
      Parallel ie8 named (nodes ++ nodes') (events ++ events')
  /-- A node before its parts. -/
  | part {n : Node} {nodes : List Node} {events : List ScopeEvent} :
      n.isPart = true → Parallel ie8 named nodes events → Parallel ie8 named (n :: nodes) events
  /-- A list of statements before the statements. -/
  | body (kind : BodyKind) {list : List Stmt} :
      Parallel ie8 named (stmts list) (stmts ie8 list) →
      Parallel ie8 named (.body kind list :: stmts list) (stmts ie8 list)
  | within {nodes : List Node} {events : List ScopeEvent} (kind : ScopeKind) (loc : Span)
      (strict : Bool) :
      Parallel ie8 named nodes events →
      Parallel ie8 named nodes (ScopeEvent.within kind loc strict events)
  | this : Parallel ie8 named [] [.this]
  | declare (id : Ident) (kind : BindingKind) (exported loop : Bool) :
      Parallel ie8 named [.ident id] [.declare id kind exported loop]
  | refer (id : Ident) (access : Access) (exported : Bool) :
      Parallel ie8 named [.ident id] [.refer id access exported]
  /-- The name of a method. -/
  | method (id : Ident) : named → Parallel ie8 named [.ident id] []

namespace Parallel

variable {ie8 : Bool} {named : Prop} {nodes : List Node} {events : List ScopeEvent}

theorem ident?_of_isPart {n : Node} (h : n.isPart = true) : n.ident? = none := by
  cases n with
  | ident => cases h
  | _ => rfl

theorem idents_within (kind : ScopeKind) (loc : Span) (strict : Bool)
    (events : List ScopeEvent) :
    idents (ScopeEvent.within kind loc strict events) = idents events := by
  have hleave : idents (events ++ [.leave]) = idents events := by
    rw [idents_append]
    exact List.append_nil _
  exact hleave

/-- The names that events are about are names of the tree, in order. -/
theorem idents_sublist (h : Parallel ie8 named nodes events) :
    (ScopeEvent.idents events).Sublist (nodes.filterMap Node.ident?) := by
  induction h with
  | nil | this | declare | refer => exact .refl _
  | method id _ => exact List.nil_sublist _
  | append _ _ ih ih' =>
    rw [ScopeEvent.idents_append, List.filterMap_append]
    exact ih.append ih'
  | part hn _ ih => rwa [List.filterMap_cons_none (ident?_of_isPart hn)]
  | body kind _ ih => exact ih
  | within kind loc strict _ ih => rwa [idents_within]

/-- Without names of methods there are no others. -/
theorem idents_eq (h : Parallel ie8 named nodes events) (hnamed : ¬named) :
    ScopeEvent.idents events = nodes.filterMap Node.ident? := by
  induction h with
  | nil | this | declare | refer => rfl
  | method id h => exact absurd h hnamed
  | append _ _ ih ih' => rw [ScopeEvent.idents_append, List.filterMap_append, ih, ih']
  | part hn _ ih => rw [ih, List.filterMap_cons_none (ident?_of_isPart hn)]
  | body kind _ ih => exact ih
  | within kind loc strict _ ih => rw [idents_within, ih]

theorem mem_of_body (h : Parallel ie8 named nodes events) {kind : BodyKind} {list : List Stmt}
    (hbody : .body kind list ∈ nodes) : ∀ e ∈ stmts ie8 list, e ∈ events := by
  induction h with
  | nil | this => cases hbody
  | declare | refer | method => cases List.mem_singleton.mp hbody
  | append _ _ ih ih' =>
    intro e he
    rcases List.mem_append.mp hbody with hbody | hbody
    · exact List.mem_append_left _ (ih hbody e he)
    · exact List.mem_append_right _ (ih' hbody e he)
  | part hn _ ih =>
    rcases List.mem_cons.mp hbody with rfl | hbody
    · cases hn
    · exact ih hbody
  | body _ _ ih =>
    rcases List.mem_cons.mp hbody with heq | hbody
    · cases heq
      exact fun e he => he
    · exact ih hbody
  | within kind loc strict _ ih =>
    intro e he
    exact List.mem_append_left _ (List.mem_cons_of_mem _ (ih hbody e he))

end Parallel

/-- Nodes and events that are listed along the same way.  They have names of methods only if
they are not `unnamed` or one of the nodes has methods with names. -/
def Meets (ie8 unnamed : Bool) (nodes : List Node) (events : List ScopeEvent) : Prop :=
  ∀ named : Prop, ((unnamed && nodes.all Node.methodsUnnamed) = false → named) →
    Parallel ie8 named nodes events

namespace Meets

variable {ie8 unnamed unnamed' : Bool} {nodes nodes' : List Node}
variable {events events' : List ScopeEvent} {n : Node}

theorem nil : Meets ie8 true [] [] := fun _ _ => .nil

theorem append (h : Meets ie8 unnamed nodes events) (h' : Meets ie8 unnamed' nodes' events') :
    Meets ie8 (unnamed && unnamed') (nodes ++ nodes') (events ++ events') := by
  intro named hnamed
  rw [List.all_append] at hnamed
  refine .append (h named fun hall => hnamed ?_) (h' named fun hall => hnamed ?_)
  all_goals
    rcases Bool.and_eq_false_iff.mp hall with hall | hall <;>
      simp only [hall, Bool.false_and, Bool.and_false]

theorem node (hn : n.isPart = true) (h : Meets ie8 n.methodsUnnamed nodes events) :
    Meets ie8 true (n :: nodes) events :=
  fun named hnamed => .part hn (h named hnamed)

theorem cons (h : Meets ie8 unnamed nodes events) (hn : n.isPart = true := by rfl) :
    Meets ie8 unnamed (n :: nodes) events := by
  intro named hnamed
  refine .part hn (h named fun hall => hnamed ?_)
  rw [List.all_cons]
  rcases Bool.and_eq_false_iff.mp hall with hall | hall <;>
    simp only [hall, Bool.false_and, Bool.and_false]

theorem body {list : List Stmt} (h : Meets ie8 true (stmts list) (stmts ie8 list))
    (kind : BodyKind) : Meets ie8 true (.body kind list :: stmts list) (stmts ie8 list) :=
  fun named hnamed => .body kind (h named hnamed)

theorem within (h : Meets ie8 unnamed nodes events) (kind : ScopeKind) (loc : Span)
    (strict : Bool) : Meets ie8 unnamed nodes (ScopeEvent.within kind loc strict events) :=
  fun named hnamed => .within kind loc strict (h named hnamed)

theorem loopScope (h : Meets ie8 unnamed nodes events) (lexical : Bool) (loc : Span) :
    Meets ie8 unnamed nodes (ScopeEvent.loopScope lexical loc events) := by
  unfold ScopeEvent.loopScope
  split
  · exact h.within .block loc false
  · exact h

theorem declare (id : Ident) (kind : BindingKind) (exported loop : Bool) :
    Meets ie8 true [.ident id] [.declare id kind exported loop] :=
  fun _ _ => .declare id kind exported loop

theorem refer (id : Ident) (access : Access) (exported : Bool) :
    Meets ie8 true [.ident id] [.refer id access exported] :=
  fun _ _ => .refer id access exported

theorem optDeclare (id : Option Ident) (kind : BindingKind) (exported : Bool) :
    Meets ie8 true (optIdent id) (ScopeEvent.optDeclare id kind exported) := by
  cases id with
  | none => exact .nil
  | some id => exact .declare id kind exported false

end Meets

/-! ## Names and specifiers -/

section Trees

variable (ie8 : Bool) {e : Expr} {use : NameUse}

theorem meets_imports (xs : List ImportSpecifier) :
    Meets ie8 true (xs.map importSpecifier) (xs.map importSpecifier) := by
  induction xs with
  | nil => exact .nil
  | cons x rest ih =>
    have hone : Meets ie8 true [importSpecifier x] [importSpecifier x] := by
      cases x <;> exact .declare _ .import false false
    exact hone.append ih

theorem meets_exports (xs : List ExportSpecifier) :
    Meets ie8 true (xs.flatMap exportSpecifier) (xs.flatMap exportSpecifier) := by
  induction xs with
  | nil => exact .nil
  | cons x rest ih =>
    have hone : Meets ie8 true (exportSpecifier x) (exportSpecifier x) := by
      obtain ⟨name, exported⟩ := x
      cases name with
      | ident id => exact .refer id .read true
      | str lit => exact .nil
    exact hone.append ih

/-! ## Trees -/

theorem meets_assigned (op : AssignOp) (h : Meets ie8 true (expr e) (expr ie8 e)) :
    Meets ie8 true (expr e) (assignTarget ie8 op (.expr e)) := by
  cases he : e.isName with
  | false => rwa [assignTarget_eq (p := .expr e) he]
  | true =>
    obtain ⟨id, rfl⟩ := exists_ident_of_isName he
    exact .cons (.refer id (assignAccess op) false)

theorem meets_update (loc : Span) (op : UpdateOp) (before : Bool)
    (h : Meets ie8 true (expr e) (expr ie8 e)) :
    Meets ie8 true (expr e) (expr ie8 (.update loc op before e)) := by
  cases he : e.isName with
  | false => rwa [expr_update he]
  | true =>
    obtain ⟨id, rfl⟩ := exists_ident_of_isName he
    exact .cons (.refer id .readWrite false)

/-- Whether the own name of a function is met where it is used so. -/
def NameUse.meets (id : Option Ident) : NameUse → Bool
  | .nowhere => id.isNone
  | _ => true

theorem meets_func_of_parts (use : NameUse) {f : Func}
    (hparams : Meets ie8 true (pats f.params) (params ie8 f.params))
    (hbody : Meets ie8 true (stmts f.body.body) (stmts ie8 f.body.body)) :
    Meets ie8 (use.meets f.id) (func f) (funcView ie8 use f).events := by
  obtain ⟨loc, id, isAsync, isGenerator, ps, ⟨bodyLoc, body⟩⟩ := f
  have hinner : Meets ie8 true (pats ps ++ .body .function body :: stmts body)
      (params ie8 ps ++ stmts ie8 body) := hparams.append (hbody.body .function)
  cases use with
  | inside =>
    have hall := (Meets.optDeclare id .functionName false).append hinner
    rw [← List.append_assoc, ← List.append_assoc] at hall
    exact (hall.within .function loc (usesStrict body)).cons
  | before kind exported =>
    have hall := (Meets.optDeclare id kind exported).append
      (hinner.within .function loc (usesStrict body))
    rw [← List.append_assoc] at hall
    exact hall.cons
  | nowhere =>
    cases id with
    | none => exact (hinner.within .function loc (usesStrict body)).cons
    | some id =>
      have hname : Meets ie8 false [.ident id] [] := fun named hnamed => .method id (hnamed rfl)
      have hall := hname.append (hinner.within .function loc (usesStrict body))
      rw [← List.append_assoc] at hall
      exact hall.cons

theorem meets_class_of_parts {c : ClassDef} (hname : use ≠ .nowhere)
    (hsuper : Meets ie8 true (optExpr c.superClass) (optExpr ie8 c.superClass))
    (hbody : Meets ie8 (c.body.all Member.methodUnnamed) (members c.body) (members ie8 c.body)) :
    Meets ie8 true (classDef c) (classView ie8 use c).events := by
  obtain ⟨loc, id, superClass, body⟩ := c
  refine .node rfl ?_
  have hinner : Meets ie8 (body.all Member.methodUnnamed) (optExpr superClass ++ members body)
      (optExpr ie8 superClass ++ members ie8 body) := hsuper.append hbody
  rw [List.append_assoc]
  cases use with
  | inside =>
    have hall := (Meets.optDeclare id .className false).append hinner
    rw [← List.append_assoc (optDeclare _ _ _)] at hall
    exact hall.within .class loc true
  | before kind exported =>
    exact (Meets.optDeclare id kind exported).append (hinner.within .class loc true)
  | nowhere => exact absurd rfl hname

end Trees

end Laconic
