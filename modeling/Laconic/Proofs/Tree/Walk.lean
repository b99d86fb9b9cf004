import Laconic.Proofs.Tree.Visit

/-!
# Changing the names of a tree

Every kind of node has a view: its events and what the events around it need to know
of it.  A change of names walks through each of them (`walks_stmts` and the statements
before it, one for each function of `NameMap`): it changes the identifiers in their
order and keeps everything else that the views show.
-/

namespace Laconic

open ScopeEvent NameMap

variable {e : Expr} {p : Pat} {use : NameUse} {loc : Span} {id id' : Option Ident}

/-! ## Views -/

/-- What a pattern is for. -/
inductive PatUse where
  | target
  | binding (kind : BindingKind) (exported loop : Bool)

/-- Where the name of a function or class is declared. -/
inductive NameUse where
  | inside
  | before (kind : BindingKind) (exported : Bool)
  | nowhere

/-- Whether a function or class is named by its own name. -/
def NameUse.named : NameUse → Bool
  | .nowhere => false
  | .inside | .before .. => true

def NameUse.ofExpr (ie8 : Bool) : NameUse := if ie8 then .before .var false else .inside

def Expr.isName : Expr → Bool
  | .ident _ => true
  | _ => false

/-- Whether a pattern is a plain name that is assigned. -/
def Pat.isName : Pat → Bool
  | .expr e => e.isName
  | _ => false

section Views

variable (ie8 : Bool)

def exprView (e : Expr) : View Bool := ⟨e.isName, expr ie8 e⟩

def optExprView (e : Option Expr) : View Unit := ⟨(), optExpr ie8 e⟩

def exprsView (es : List Expr) : View Unit := ⟨(), exprs ie8 es⟩

def elementsView (es : List (Option Expr)) : View Unit := ⟨(), elements ie8 es⟩

def keyView (k : PropName) : View Unit := ⟨(), propName ie8 k⟩

def propertiesView (ps : List Property) : View Unit := ⟨(), properties ie8 ps⟩

def patView (use : PatUse) (p : Pat) : View Bool where
  tag := p.isName
  events := match use with
    | .target => targetPat ie8 p
    | .binding kind exported loop => bindingPat ie8 kind exported loop p

def patElementsView (use : PatUse) (ps : List (Option Pat)) : View Unit where
  tag := ()
  events := match use with
    | .target => targetElements ie8 ps
    | .binding kind exported loop => bindingElements ie8 kind exported loop ps

def patPropertiesView (use : PatUse) (ps : List PatProperty) : View Unit where
  tag := ()
  events := match use with
    | .target => targetProperties ie8 ps
    | .binding kind exported loop => bindingProperties ie8 kind exported loop ps

def paramsView (ps : List Pat) : View Unit := ⟨(), params ie8 ps⟩

def optParamView (p : Option Pat) : View Unit := ⟨(), optParam ie8 p⟩

/-- The name of a function or class whose own scope would declare it as `own`. -/
def nameView (own : BindingKind) (use : NameUse) (id : Option Ident) : View Unit where
  tag := ()
  events := match use with
    | .inside => optDeclare id own false
    | .before kind exported => optDeclare id kind exported
    | .nowhere => []

def funcView (use : NameUse) (f : Func) : View Unit where
  tag := ()
  events := match use with
    | .inside => func ie8 f.id f
    | .before kind exported => optDeclare f.id kind exported ++ func ie8 none f
    | .nowhere => func ie8 none f

def classView (use : NameUse) (c : ClassDef) : View Unit where
  tag := ()
  events := match use with
    | .inside => classDef ie8 c.id c
    | .before kind exported => optDeclare c.id kind exported ++ classDef ie8 none c
    | .nowhere => classDef ie8 none c

def arrowView (a : Arrow) : View Unit := ⟨(), arrow ie8 a⟩

def membersView (ms : List Member) : View Unit := ⟨(), members ie8 ms⟩

def bodyView (b : Block) : View (Span × List String) :=
  ⟨(b.loc, directives b.body), stmts ie8 b.body⟩

def optBlockView (b : Option Block) : View Unit := ⟨(), optBlock ie8 b⟩

def handlerView (h : Option Handler) : View Unit := ⟨(), handler ie8 h⟩

def varDeclView (exported loop : Bool) (d : VarDecl) : View VarKind :=
  ⟨d.kind, varDecl ie8 exported loop d⟩

def declaratorsView (kind : BindingKind) (exported loop : Bool) (ds : List Declarator) :
    View Unit :=
  ⟨(), declarators ie8 kind exported loop ds⟩

def forInitView (i : ForInit) : View Bool := ⟨isLexicalInit i, forInit ie8 i⟩

/-- The test and the update of a `for` loop. -/
def roundView (p : Option Expr × Option Expr) : View Unit :=
  ⟨(), optExpr ie8 p.1 ++ optExpr ie8 p.2⟩

def forTargetView (t : ForTarget) : View Bool := ⟨isLexicalTarget t, forTarget ie8 t⟩

def switchCasesView (cs : List SwitchCase) : View Unit := ⟨(), switchCases ie8 cs⟩

def importView (x : ImportSpecifier) : View Unit := ⟨(), [importSpecifier x]⟩

def importsView (xs : List ImportSpecifier) : View Unit := ⟨(), xs.map importSpecifier⟩

def exportView (x : ExportSpecifier) : View Unit := ⟨(), exportSpecifier x⟩

def exportsView (xs : List ExportSpecifier) : View Unit := ⟨(), xs.flatMap exportSpecifier⟩

def stmtView (exported : Bool) (s : Stmt) : View (Option String) :=
  ⟨s.directive?, stmt ie8 exported s⟩

def optStmtView (s : Option Stmt) : View Unit := ⟨(), optStmt ie8 s⟩

def stmtsView (body : List Stmt) : View (List String) :=
  ⟨directives body, stmts ie8 body⟩

end Views

theorem directives_cons (s : Stmt) (rest : List Stmt) :
    directives (s :: rest) = match s.directive? with
      | some raw => directiveValue raw :: directives rest
      | none => [] := by
  cases s <;> rfl

/-! ## Events of nodes -/

theorem exists_ident_of_isName (h : e.isName = true) : ∃ id, e = .ident id := by
  cases e with
  | ident id => exact ⟨id, rfl⟩
  | _ => cases h

theorem expr_update {ie8 : Bool} (h : e.isName = false) (loc : Span) (op : UpdateOp)
    (before : Bool) : expr ie8 (.update loc op before e) = expr ie8 e := by
  cases e with
  | ident id => cases h
  | _ => rfl

def assignTarget (ie8 : Bool) (op : AssignOp) : Pat → List ScopeEvent
  | .expr (.ident id) => [.refer id (assignAccess op) false]
  | p => targetPat ie8 p

theorem expr_assign (ie8 : Bool) (loc : Span) (op : AssignOp) (p : Pat) (v : Expr) :
    expr ie8 (.assign loc op p v) = assignTarget ie8 op p ++ expr ie8 v := by
  cases p with
  | expr e => cases e <;> rfl
  | _ => rfl

theorem assignTarget_eq {ie8 : Bool} {op : AssignOp} (h : p.isName = false) :
    assignTarget ie8 op p = targetPat ie8 p := by
  cases p with
  | expr e =>
    cases e with
    | ident => cases h
    | _ => rfl
  | _ => rfl

theorem exists_expr_of_isName (h : p.isName = true) : ∃ id, p = .expr (.ident id) := by
  cases p with
  | expr e =>
    obtain ⟨id, rfl⟩ := exists_ident_of_isName h
    exact ⟨id, rfl⟩
  | _ => cases h

namespace Renamed

variable {ie8 : Bool} {news : List Ident} {b b' : Block}

theorem update {e e' : Expr} (h : Renamed (exprView ie8 e) news (exprView ie8 e')) (loc : Span)
    (op : UpdateOp) (before : Bool) :
    Refill news (expr ie8 (.update loc op before e))
      (expr ie8 (.update loc op before e')) := by
  have htag : e'.isName = e.isName := h.tag
  cases he : e.isName with
  | false =>
    rw [expr_update he, expr_update (htag.trans he)]
    exact h.events
  | true =>
    obtain ⟨id, rfl⟩ := exists_ident_of_isName he
    obtain ⟨new, rfl⟩ := exists_ident_of_isName (htag.trans he)
    rw [← h.events.idents_eq]
    exact .one_refer

theorem assignTarget {p p' : Pat}
    (h : Renamed (patView ie8 .target p) news (patView ie8 .target p'))
    (op : AssignOp) :
    Refill news (Laconic.assignTarget ie8 op p)
      (Laconic.assignTarget ie8 op p') := by
  have htag : p'.isName = p.isName := h.tag
  cases hp : p.isName with
  | false =>
    rw [assignTarget_eq hp, assignTarget_eq (htag.trans hp)]
    exact h.events
  | true =>
    obtain ⟨id, rfl⟩ := exists_expr_of_isName hp
    obtain ⟨new, rfl⟩ := exists_expr_of_isName (htag.trans hp)
    rw [← h.events.idents_eq]
    exact .one_refer

theorem block (h : Renamed (bodyView ie8 b) news (bodyView ie8 b')) :
    Refill news (ScopeEvent.block ie8 b) (ScopeEvent.block ie8 b') := by
  obtain ⟨loc, body⟩ := b
  obtain ⟨loc', body'⟩ := b'
  obtain ⟨rfl, -⟩ := Prod.mk.inj h.tag
  exact h.events.within .block loc' false

theorem usesStrict (h : Renamed (bodyView ie8 b) news (bodyView ie8 b')) :
    ScopeEvent.usesStrict b'.body = ScopeEvent.usesStrict b.body :=
  congrArg (fun t => t.2.contains "use strict") h.tag

end Renamed

variable {ie8 : Bool} {n k l : List Ident}

theorem refill_func {isAsync isGenerator : Bool} {ps ps' : List Pat} {b b' : Block}
    (hid : Renamed (nameView .functionName use id) n (nameView .functionName use id'))
    (hps : Renamed (paramsView ie8 ps) k (paramsView ie8 ps'))
    (hb : Renamed (bodyView ie8 b) l (bodyView ie8 b')) :
    Refill (n ++ k ++ l) (funcView ie8 use ⟨loc, id, isAsync, isGenerator, ps, b⟩).events
      (funcView ie8 use ⟨loc, id', isAsync, isGenerator, ps', b'⟩).events := by
  have hstrict := hb.usesStrict
  obtain ⟨bodyLoc, body⟩ := b
  obtain ⟨bodyLoc', body'⟩ := b'
  have hscope {a : List Ident} {es es' : List ScopeEvent} (h : Refill a es es') :
      Refill a (within .function loc (ScopeEvent.usesStrict body) es)
        (within .function loc (ScopeEvent.usesStrict body') es') :=
    hstrict ▸ h.within .function loc _
  cases use with
  | inside | nowhere => exact hscope ((hid.events.append hps.events).append hb.events)
  | before kind exported =>
    rw [List.append_assoc]
    exact hid.events.append (hscope (hps.events.append hb.events))

theorem refill_class {superClass superClass' : Option Expr} {body body' : List Member}
    (hid : Renamed (nameView .className use id) n (nameView .className use id'))
    (hsuper : Renamed (optExprView ie8 superClass) k (optExprView ie8 superClass'))
    (hbody : Renamed (membersView ie8 body) l (membersView ie8 body')) :
    Refill (n ++ k ++ l) (classView ie8 use ⟨loc, id, superClass, body⟩).events
      (classView ie8 use ⟨loc, id', superClass', body'⟩).events := by
  cases use with
  | inside | nowhere =>
    exact ((hid.events.append hsuper.events).append hbody.events).within .class loc true
  | before kind exported =>
    rw [List.append_assoc]
    exact hid.events.append ((hsuper.events.append hbody.events).within .class loc true)

/-! ## Names and specifiers -/

section Walk

variable {m : Type → Type} [Monad m] [LawfulMonad m] {g : Ident → m Ident}

theorem walks_name (own : BindingKind) (use : NameUse) (id : Option Ident) :
    Walks (fun _ _ g => (ofIdent g).ownName use.named) (nameView own use) id := by
  cases use with
  | nowhere => exact walks_pure .nil
  | inside | before =>
    cases id with
    | none => exact walks_pure .nil
    | some id => exact walks_ident fun _ => .one_declare

theorem walks_import (x : ImportSpecifier) :
    Walks (fun _ _ g => (ofIdent g).importSpecifier) importView x := by
  cases x <;> exact walks_ident fun _ => .one_declare

theorem walks_export (x : ExportSpecifier) :
    Walks (fun _ _ g => (ofIdent g).exportSpecifier) exportView x := by
  obtain ⟨name, exported⟩ := x
  cases name with
  | ident id =>
    exact walks_ident (f := fun id => ExportSpecifier.mk (.ident id) exported) fun _ => .one_refer
  | str lit => exact walks_pure .nil

theorem walks_imports (xs : List ImportSpecifier) :
    Walks (fun _ _ g xs => xs.mapM (ofIdent g).importSpecifier) importsView xs := by
  induction xs with
  | nil => exact walks_pure .nil
  | cons x rest ih =>
    exact walks_two (walks_import x) ih (fun h k => h.events.append k.events)
      (fun _ _ _ _ => rfl) fun _ _ _ => List.mapM_cons

theorem walks_exports (xs : List ExportSpecifier) :
    Walks (fun _ _ g xs => xs.mapM (ofIdent g).exportSpecifier) exportsView xs := by
  induction xs with
  | nil => exact walks_pure .nil
  | cons x rest ih =>
    exact walks_two (walks_export x) ih (fun h k => h.events.append k.events)
      (fun _ _ _ _ => rfl) fun _ _ _ => List.mapM_cons

/-! ## Expressions that look into their parts -/

/-- The target of a count is changed as any other expression: the names of properties
stay. -/
theorem ofIdent_update (loc : Span) (op : UpdateOp) (before : Bool) (e : Expr) :
    (ofIdent g).expr (.update loc op before e)
      = do return .update loc op before (← (ofIdent g).expr e) := by
  cases e with
  | member mloc optional o k =>
    have hmember : (ofIdent g).expr (.member mloc optional o k)
        = (ofIdent g).expr o >>= fun o => (ofIdent g).propName pure k >>= fun k =>
          pure (.member mloc optional o k) := rfl
    rw [hmember]
    simp only [bind_assoc, pure_bind]
    rfl
  | _ => rfl

theorem walks_update (loc : Span) (op : UpdateOp) (before : Bool) {e : Expr}
    (h : Walks (fun _ _ g => (ofIdent g).expr) (exprView ie8) e) :
    Walks (fun _ _ g => (ofIdent g).expr) (exprView ie8) (.update loc op before e) := by
  exact walks_map h (fun h => h.update loc op before) (fun _ _ => rfl)
    fun _ => ofIdent_update loc op before

theorem walks_assign (loc : Span) (op : AssignOp) {p : Pat} {v : Expr}
    (hp : Walks (fun _ _ g => (ofIdent g).pat) (patView ie8 .target) p)
    (hv : Walks (fun _ _ g => (ofIdent g).expr) (exprView ie8) v) :
    Walks (fun _ _ g => (ofIdent g).expr) (exprView ie8) (.assign loc op p v) := by
  refine walks_two (f := Expr.assign loc op) hp hv ?_
  intro p' v' n k hp hv
  show Refill _ (expr ie8 (.assign loc op p v)) (expr ie8 (.assign loc op p' v'))
  rw [expr_assign, expr_assign]
  exact (hp.assignTarget op).append hv.events

/-! ## Trees -/

variable (g) (ie8)

mutual

theorem walks_expr : ∀ e : Expr, Walks (fun _ _ g => (ofIdent g).expr) (exprView ie8) e
  | .null _ | .bool .. | .num .. | .str _ | .bigint .. | .regexp .. | .super _
  | .metaProperty .. => walks_pure .nil
  | .this _ => walks_pure (.plain rfl .nil)
  | .ident _ => walks_ident fun _ => .one_refer
  | .template _ _ es | .sequence _ es => walks_map (walks_exprs es)
  | .array _ es => walks_map (walks_elements es)
  | .object _ ps => walks_map (walks_properties ps)
  | .function f =>
    walks_map (walks_func (.ofExpr ie8) f) (by cases ie8 <;> exact fun h => h.events)
      (fun _ _ => rfl) (by cases ie8 <;> exact fun _ _ => rfl)
  | .arrow a => walks_map (walks_arrow a)
  | .class c => walks_map (walks_class .inside rfl c)
  | .unary _ _ e | .chain _ e | .spread _ e | .await _ e => walks_map (walks_expr e)
  | .update loc op before e => walks_update loc op before (walks_expr e)
  | .binary _ _ l r | .logical _ _ l r => walks_two (walks_expr l) (walks_expr r)
  | .conditional _ t c a => walks_three (walks_expr t) (walks_expr c) (walks_expr a)
  | .assign loc op p v => walks_assign loc op (walks_pat .target p) (walks_expr v)
  | .member _ _ o k => walks_two (walks_expr o) (walks_key k)
  | .call _ _ _ e es | .new _ _ e es => walks_two (walks_expr e) (walks_exprs es)
  | .tagged loc e quasiLoc qs es =>
    walks_two (f := (Expr.tagged loc · quasiLoc qs)) (walks_expr e) (walks_exprs es)
  | .yield _ _ e => walks_map (walks_optExpr e)
  | .importCall _ e options => walks_two (walks_expr e) (walks_optExpr options)

theorem walks_optExpr :
    ∀ e : Option Expr, Walks (fun _ _ g => (ofIdent g).optExpr) (optExprView ie8) e
  | some e => walks_map (walks_expr e)
  | none => walks_pure .nil

theorem walks_exprs : ∀ es : List Expr, Walks (fun _ _ g => (ofIdent g).exprs) (exprsView ie8) es
  | [] => walks_pure .nil
  | e :: rest => walks_two (walks_expr e) (walks_exprs rest)

theorem walks_elements :
    ∀ es : List (Option Expr), Walks (fun _ _ g => (ofIdent g).elements) (elementsView ie8) es
  | [] => walks_pure .nil
  | some e :: rest => walks_two (f := (some · :: ·)) (walks_expr e) (walks_elements rest)
  | none :: rest => walks_map (walks_elements rest)

theorem walks_key :
    ∀ k : PropName, Walks (fun _ _ g => (ofIdent g).propName pure) (keyView ie8) k
  | .computed e => walks_map (walks_expr e)
  | .ident _ | .privateName .. | .str _ | .num .. => walks_pure .nil

theorem walks_properties :
    ∀ ps : List Property, Walks (fun _ _ g => (ofIdent g).properties) (propertiesView ie8) ps
  | [] => walks_pure .nil
  | .value loc key e :: rest =>
    walks_three (f := (.value loc · · :: ·)) (walks_key key) (walks_expr e) (walks_properties rest)
  | .getter loc key f :: rest =>
    walks_three (f := (.getter loc · · :: ·)) (walks_key key) (walks_func .nowhere f)
      (walks_properties rest)
  | .setter loc key f :: rest =>
    walks_three (f := (.setter loc · · :: ·)) (walks_key key) (walks_func .nowhere f)
      (walks_properties rest)
  | .method loc key f :: rest =>
    walks_three (f := (.method loc · · :: ·)) (walks_key key) (walks_func .nowhere f)
      (walks_properties rest)
  | .spread loc e :: rest =>
    walks_two (f := (.spread loc · :: ·)) (walks_expr e) (walks_properties rest)

theorem walks_func :
    ∀ (use : NameUse) (f : Func),
      Walks (fun _ _ g => (ofIdent g).func use.named) (funcView ie8 use) f
  | use, ⟨loc, id, isAsync, isGenerator, ps, b⟩ =>
    walks_three (f := (Func.mk loc · isAsync isGenerator · ·))
      (walks_name .functionName use id) (walks_params ps) (walks_block b) refill_func

theorem walks_arrow : ∀ a : Arrow, Walks (fun _ _ g => (ofIdent g).arrow) (arrowView ie8) a
  | ⟨loc, isAsync, ps, .block ⟨_, body⟩⟩ =>
    walks_two (f := fun ps b => Arrow.mk loc isAsync ps (.block b)) (walks_params ps)
      (walks_block ⟨_, body⟩) fun {_ b' _ _} h k => by
        obtain ⟨bodyLoc', body'⟩ := b'
        exact (h.events.append k.events).within .arrow loc false
  | ⟨loc, isAsync, ps, .expr e⟩ =>
    walks_two (f := fun ps e => Arrow.mk loc isAsync ps (.expr e)) (walks_params ps) (walks_expr e)
      fun h k => (h.events.append k.events).within .arrow loc false

theorem walks_block : ∀ b : Block, Walks (fun _ _ g => (ofIdent g).block) (bodyView ie8) b
  | ⟨loc, body⟩ =>
    walks_map (walks_stmts body) (fun h => h.events) fun _ h => congrArg (Prod.mk loc) h

theorem walks_class :
    ∀ (use : NameUse), use.named = true → ∀ c : ClassDef,
      Walks (fun _ _ g => (ofIdent g).classDef) (classView ie8 use) c
  | use, hnamed, ⟨_, id, superClass, body⟩ =>
    walks_three (walks_name .className use id) (walks_optExpr superClass) (walks_members body)
      refill_class (fun _ _ _ => rfl) fun _ _ _ _ => by rw [hnamed]; rfl

theorem walks_members :
    ∀ ms : List Member, Walks (fun _ _ g => (ofIdent g).members) (membersView ie8) ms
  | [] => walks_pure .nil
  | .method loc isStatic kind key f :: rest =>
    walks_three (f := (.method loc isStatic kind · · :: ·)) (walks_key key)
      (walks_func .nowhere f) (walks_members rest)
  | .property loc isStatic key e :: rest =>
    walks_three (f := (.property loc isStatic · · :: ·)) (walks_key key) (walks_optExpr e)
      (walks_members rest)
  | .staticBlock loc body :: rest =>
    walks_two (f := (.staticBlock loc · :: ·)) (walks_stmts body) (walks_members rest)
      fun h k => (h.events.within .function loc true).append k.events

theorem walks_pat :
    ∀ (use : PatUse) (p : Pat), Walks (fun _ _ g => (ofIdent g).pat) (patView ie8 use) p
  | use, .ident _ => walks_ident fun _ => by
    cases use with
    | target => exact .one_refer
    | binding => exact .one_declare
  | use, .array _ ps =>
    walks_map (walks_patElements use ps) (by cases use <;> exact fun h => h.events)
  | use, .object _ ps =>
    walks_map (walks_patProperties use ps) (by cases use <;> exact fun h => h.events)
  | use, .rest _ p => walks_map (walks_pat use p) (by cases use <;> exact fun h => h.events)
  | use, .assign _ p e =>
    walks_two (walks_pat use p) (walks_expr e)
      (by cases use <;> exact fun h k => h.events.append k.events)
  | use, .expr e =>
    walks_map (walks_expr e) (by cases use <;> exact fun h => h.events) fun _ h => h

theorem walks_optParam :
    ∀ p : Option Pat, Walks (fun _ _ g => (ofIdent g).optPat) (optParamView ie8) p
  | some p => walks_map (walks_pat (.binding (if ie8 then .var else .catchParam) false false) p)
  | none => walks_pure .nil

theorem walks_params : ∀ ps : List Pat, Walks (fun _ _ g => (ofIdent g).pats) (paramsView ie8) ps
  | [] => walks_pure .nil
  | p :: rest => walks_two (walks_pat (.binding .param false false) p) (walks_params rest)

theorem walks_patElements :
    ∀ (use : PatUse) (ps : List (Option Pat)),
      Walks (fun _ _ g => (ofIdent g).patElements) (patElementsView ie8 use) ps
  | use, [] => walks_pure (by cases use <;> exact .nil)
  | use, some p :: rest =>
    walks_two (f := (some · :: ·)) (walks_pat use p) (walks_patElements use rest)
      (by cases use <;> exact fun h k => h.events.append k.events)
  | use, none :: rest =>
    walks_map (walks_patElements use rest) (by cases use <;> exact fun h => h.events)

theorem walks_patProperties :
    ∀ (use : PatUse) (ps : List PatProperty),
      Walks (fun _ _ g => (ofIdent g).patProperties) (patPropertiesView ie8 use) ps
  | use, [] => walks_pure (by cases use <;> exact .nil)
  | use, .keyValue loc key p :: rest =>
    walks_three (f := (.keyValue loc · · :: ·)) (walks_key key) (walks_pat use p)
      (walks_patProperties use rest)
      (by cases use <;> exact fun h k l => (h.events.append k.events).append l.events)
  | use, .rest loc p :: rest =>
    walks_two (f := (.rest loc · :: ·)) (walks_pat use p) (walks_patProperties use rest)
      (by cases use <;> exact fun h k => h.events.append k.events)

theorem walks_varDecl :
    ∀ (exported loop : Bool) (d : VarDecl),
      Walks (fun _ _ g => (ofIdent g).varDecl) (varDeclView ie8 exported loop) d
  | exported, loop, ⟨_, kind, ds⟩ =>
    walks_map (walks_declarators (.ofVarKind kind) exported loop ds)

theorem walks_declarators :
    ∀ (kind : BindingKind) (exported loop : Bool) (ds : List Declarator),
      Walks (fun _ _ g => (ofIdent g).declarators) (declaratorsView ie8 kind exported loop) ds
  | _, _, _, [] => walks_pure .nil
  | kind, exported, loop, ⟨loc, p, e⟩ :: rest =>
    walks_three (f := fun p e rest => Declarator.mk loc p e :: rest)
      (walks_pat (.binding kind exported loop) p) (walks_optExpr e)
      (walks_declarators kind exported loop rest)

theorem walks_forInit :
    ∀ i : ForInit, Walks (fun _ _ g => (ofIdent g).forInit) (forInitView ie8) i
  | .none => walks_pure .nil
  | .decl d =>
    walks_map (walks_varDecl false false d) (fun h => h.events)
      fun _ h => congrArg (fun kind : VarKind => kind != .var) h
  | .expr e => walks_map (walks_expr e)

theorem walks_forTarget :
    ∀ t : ForTarget, Walks (fun _ _ g => (ofIdent g).forTarget) (forTargetView ie8) t
  | .decl d =>
    walks_map (walks_varDecl false true d) (fun h => h.events)
      fun _ h => congrArg (fun kind : VarKind => kind != .var) h
  | .pat p => walks_map (walks_pat .target p)

theorem walks_switchCases :
    ∀ cs : List SwitchCase, Walks (fun _ _ g => (ofIdent g).switchCases) (switchCasesView ie8) cs
  | [] => walks_pure .nil
  | ⟨loc, test, body⟩ :: rest =>
    walks_three (f := fun test body rest => SwitchCase.mk loc test body :: rest)
      (walks_optExpr test) (walks_stmts body) (walks_switchCases rest)

theorem walks_handler :
    ∀ h : Option Handler, Walks (fun _ _ g => (ofIdent g).handler) (handlerView ie8) h
  | none => walks_pure .nil
  | some ⟨loc, param, ⟨bodyLoc, body⟩⟩ =>
    walks_two (f := fun param b => some (Handler.mk loc param b)) (walks_optParam param)
      (walks_block ⟨bodyLoc, body⟩)
      (fun {_ b' _ _} h k => by
        obtain ⟨bodyLoc', body'⟩ := b'
        exact (h.events.append k.events).within .catch loc false)

theorem walks_optBlock :
    ∀ b : Option Block, Walks (fun _ _ g => (ofIdent g).optBlock) (optBlockView ie8) b
  | none => walks_pure .nil
  | some b => walks_map (walks_block b) fun h => h.block

theorem walks_stmt :
    ∀ (exported : Bool) (s : Stmt), Walks (fun _ _ g => (ofIdent g).stmt) (stmtView ie8 exported) s
  | _, .block b => walks_map (walks_block b) fun h => h.block
  | exported, .varDecl d => walks_map (walks_varDecl exported false d)
  | exported, .function f => walks_map (walks_func (.before .function exported) f)
  | exported, .class c => walks_map (walks_class (.before .class exported) rfl c)
  | _, .expr _ e | _, .throw _ e | _, .exportExpr _ e => walks_map (walks_expr e)
  | _, .if _ test c a => walks_three (walks_expr test) (walks_stmt false c) (walks_optStmt a)
  | exported, .for loc init test update body => by
    have hround : Walks (fun _ _ g p => do
        return (← (ofIdent g).optExpr p.1, ← (ofIdent g).optExpr p.2)) (roundView ie8)
        (test, update) :=
      walks_two (walks_optExpr test) (walks_optExpr update)
    exact walks_three (f := fun init p body => Stmt.for loc init p.1 p.2 body)
      (c := (test, update)) (walks_forInit init) hround (walks_stmt false body)
      (fun h k l => by
        have hevents := ((h.events.append k.events).append l.events).loopScope h.tag loc
        simp only [roundView, ← List.append_assoc] at hevents
        exact hevents)
      (fun _ _ _ => rfl)
      fun _ _ _ _ => by
        simp only [bind_assoc, pure_bind]
        rfl
  | _, .forIn loc target e body | _, .forOf loc _ target e body =>
    walks_three (walks_forTarget target) (walks_expr e) (walks_stmt false body)
      fun h k l => ((h.events.append k.events).append l.events).loopScope h.tag loc
  | _, .while _ test body => walks_two (walks_expr test) (walks_stmt false body)
  | _, .doWhile _ body test => walks_two (walks_stmt false body) (walks_expr test)
  | _, .switch loc e cases =>
    walks_two (walks_expr e) (walks_switchCases cases)
      fun h k => h.events.append (k.events.within .block loc false)
  | _, .try _ b h f =>
    walks_three (walks_block b) (walks_handler h) (walks_optBlock f)
      fun h k l => (h.block.append k.events).append l.events
  | _, .return _ e => walks_map (walks_optExpr e)
  | _, .labeled _ _ body => walks_map (walks_stmt false body)
  | _, .with loc e body =>
    walks_two (walks_expr e) (walks_stmt false body)
      fun h k => h.events.append (k.events.within .with loc false)
  | _, .importDecl loc specifiers source =>
    walks_map (f := (Stmt.importDecl loc · source)) (walks_imports specifiers)
  | _, .exportNamed loc specifiers none =>
    walks_map (f := (Stmt.exportNamed loc · none)) (walks_exports specifiers)
  | _, .exportDecl _ s => walks_map (walks_stmt true s)
  | _, .exportFunction _ f => walks_map (walks_func (.before .function true) f)
  | _, .exportClass _ c => walks_map (walks_class (.before .class true) rfl c)
  | _, .break .. | _, .continue .. | _, .debugger _ | _, .empty _ | _, .directive ..
  | _, .exportAll .. | _, .exportNamed _ _ (some _) => walks_pure .nil

theorem walks_optStmt :
    ∀ s : Option Stmt, Walks (fun _ _ g => (ofIdent g).optStmt) (optStmtView ie8) s
  | some s => walks_map (walks_stmt false s)
  | none => walks_pure .nil

theorem walks_stmts :
    ∀ body : List Stmt, Walks (fun _ _ g => (ofIdent g).stmts) (stmtsView ie8) body
  | [] => walks_pure .nil
  | s :: rest =>
    walks_two (walks_stmt false s) (walks_stmts rest) (fun h k => h.events.append k.events)
      (fun s' rest' hs hrest => by
        show directives (s' :: rest') = directives (s :: rest)
        rw [directives_cons, directives_cons, show s'.directive? = s.directive? from hs,
          show directives rest' = directives rest from hrest])

end

end Walk

end Laconic
