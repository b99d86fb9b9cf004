import Laconic.Proofs.Tree.Targets
import Laconic.Tree.Nodes

/-!
# What a tree may consist of

A vocabulary says which functions there may be, whether the functions of methods may have names
of their own, whether jumps must have targets and whether statements that import and export may
be inside others.  Whether a tree keeps to it is a question to each of its parts.
-/

namespace Laconic

/-! ## Methods without names

The function of a method may have a name of its own in a tree.  The syntax has no such methods:
what is written before the parameters of a method is the name of a property. -/

def Property.methodUnnamed : Property → Bool
  | .getter _ _ f | .setter _ _ f | .method _ _ f => f.id.isNone
  | .value .. | .spread .. => true

def Member.methodUnnamed : Member → Bool
  | .method _ _ _ _ f => f.id.isNone
  | .property .. | .staticBlock .. => true

def Node.methodsUnnamed : Node → Bool
  | .expr (.object _ ps) => ps.all Property.methodUnnamed
  | .class c => c.body.all Member.methodUnnamed
  | _ => true

/-- No function of a method has a name of its own. -/
def Program.methodsUnnamed (p : Program) : Bool := p.nodes.all Node.methodsUnnamed

/-! ## Vocabularies -/

/-- What a tree may consist of. -/
structure Vocabulary where
  /-- The functions that there may be, arrow functions apart. -/
  function : Func → Prop
  /-- Whether the functions of methods must be without names of their own. -/
  unnamed : Prop
  /-- Whether jumps must have targets. -/
  jumps : Prop
  /-- Whether imports and exports may be there. -/
  exports : Prop

namespace Vocabulary

/-- What a vocabulary says about one node. -/
def own (v : Vocabulary) : Node → Prop
  | .func f => v.function f
  | .expr (.object _ ps) => v.unnamed → ps.all Property.methodUnnamed = true
  | .class c => v.unnamed → c.body.all Member.methodUnnamed = true
  | _ => True

mutual

@[reducible] def expr (v : Vocabulary) : Expr → Prop
  | .template _ _ es | .sequence _ es => exprs v es
  | .array _ es => elements v es
  | .object _ ps => (v.unnamed → ps.all Property.methodUnnamed = true) ∧ properties v ps
  | .function f => func v f
  | .arrow a => arrow v a
  | .class c => classDef v c
  | .unary _ _ e | .chain _ e | .spread _ e | .await _ e | .update _ _ _ e => expr v e
  | .binary _ _ l r | .logical _ _ l r => expr v l ∧ expr v r
  | .conditional _ t c a => expr v t ∧ expr v c ∧ expr v a
  | .assign _ _ p e => pat v p ∧ expr v e
  | .member _ _ o p => expr v o ∧ propName v p
  | .call _ _ _ e es | .new _ _ e es | .tagged _ e _ _ es => expr v e ∧ exprs v es
  | .yield _ _ e => optExpr v e
  | .importCall _ e options => expr v e ∧ optExpr v options
  | _ => True

@[reducible] def optExpr (v : Vocabulary) : Option Expr → Prop
  | some e => expr v e
  | none => True

@[reducible] def exprs (v : Vocabulary) : List Expr → Prop
  | [] => True
  | e :: rest => expr v e ∧ exprs v rest

@[reducible] def elements (v : Vocabulary) : List (Option Expr) → Prop
  | [] => True
  | some e :: rest => expr v e ∧ elements v rest
  | none :: rest => elements v rest

@[reducible] def propName (v : Vocabulary) : PropName → Prop
  | .computed e => expr v e
  | _ => True

@[reducible] def properties (v : Vocabulary) : List Property → Prop
  | [] => True
  | .value _ key e :: rest => propName v key ∧ expr v e ∧ properties v rest
  | .getter _ key f :: rest | .setter _ key f :: rest | .method _ key f :: rest =>
    propName v key ∧ func v f ∧ properties v rest
  | .spread _ e :: rest => expr v e ∧ properties v rest

@[reducible] def func (v : Vocabulary) : Func → Prop
  | ⟨loc, id, isAsync, isGenerator, ps, ⟨bodyLoc, body⟩⟩ =>
    v.function ⟨loc, id, isAsync, isGenerator, ps, ⟨bodyLoc, body⟩⟩ ∧ pats v ps ∧ stmts v {} body

@[reducible] def arrow (v : Vocabulary) : Arrow → Prop
  | ⟨_, _, ps, .block ⟨_, body⟩⟩ => pats v ps ∧ stmts v {} body
  | ⟨_, _, ps, .expr e⟩ => pats v ps ∧ expr v e

@[reducible] def classDef (v : Vocabulary) : ClassDef → Prop
  | ⟨_, _, superClass, body⟩ =>
    (v.unnamed → body.all Member.methodUnnamed = true) ∧ optExpr v superClass ∧ members v body

@[reducible] def members (v : Vocabulary) : List Member → Prop
  | [] => True
  | .method _ _ _ key f :: rest => propName v key ∧ func v f ∧ members v rest
  | .property _ _ key e :: rest => propName v key ∧ optExpr v e ∧ members v rest
  | .staticBlock _ body :: rest => stmts v {} body ∧ members v rest

@[reducible] def pat (v : Vocabulary) : Pat → Prop
  | .ident _ => True
  | .array _ ps => patElements v ps
  | .object _ ps => patProperties v ps
  | .rest _ p => pat v p
  | .assign _ p e => pat v p ∧ expr v e
  | .expr e => expr v e

@[reducible] def patElements (v : Vocabulary) : List (Option Pat) → Prop
  | [] => True
  | some p :: rest => pat v p ∧ patElements v rest
  | none :: rest => patElements v rest

@[reducible] def patProperties (v : Vocabulary) : List PatProperty → Prop
  | [] => True
  | .keyValue _ key p :: rest => propName v key ∧ pat v p ∧ patProperties v rest
  | .rest _ p :: rest => pat v p ∧ patProperties v rest

@[reducible] def pats (v : Vocabulary) : List Pat → Prop
  | [] => True
  | p :: rest => pat v p ∧ pats v rest

@[reducible] def varDecl (v : Vocabulary) : VarDecl → Prop
  | ⟨_, _, ds⟩ => declarators v ds

@[reducible] def declarators (v : Vocabulary) : List Declarator → Prop
  | [] => True
  | ⟨_, p, e⟩ :: rest => pat v p ∧ optExpr v e ∧ declarators v rest

/-- What runs before a loop keeps to a vocabulary. -/
@[reducible] def forInit (v : Vocabulary) : ForInit → Prop
  | .none => True
  | .decl d => varDecl v d
  | .expr e => expr v e

/-- What each round of a loop assigns keeps to a vocabulary. -/
@[reducible] def forTarget (v : Vocabulary) : ForTarget → Prop
  | .decl d => varDecl v d
  | .pat p => pat v p

@[reducible] def switchCases (v : Vocabulary) (t : Targets) : List SwitchCase → Prop
  | [] => True
  | ⟨_, test, body⟩ :: rest => optExpr v test ∧ stmts v t body ∧ switchCases v t rest

@[reducible] def block (v : Vocabulary) (t : Targets) : Block → Prop
  | ⟨_, body⟩ => stmts v t body

@[reducible] def handler (v : Vocabulary) (t : Targets) : Option Handler → Prop
  | none => True
  | some ⟨_, param, b⟩ => optParam v param ∧ block v t b

@[reducible] def optParam (v : Vocabulary) : Option Pat → Prop
  | none => True
  | some p => pat v p

/-- Statements in braces that may be absent keep to a vocabulary. -/
@[reducible] def optBlock (v : Vocabulary) (t : Targets) : Option Block → Prop
  | none => True
  | some b => block v t b

@[reducible] def stmt (v : Vocabulary) (t : Targets) : Stmt → Prop
  | .block b => block v t b
  | .varDecl d => varDecl v d
  | .function f => func v f
  | .class c => classDef v c
  | .expr _ e | .throw _ e => expr v e
  | .if _ test c a => expr v test ∧ stmt v t c ∧ optStmt v t a
  | .for _ init test update body =>
    forInit v init ∧ optExpr v test ∧ optExpr v update ∧ stmt v t.inLoop body
  | .forIn _ target e body | .forOf _ _ target e body =>
    forTarget v target ∧ expr v e ∧ stmt v t.inLoop body
  | .while _ test body | .doWhile _ body test => expr v test ∧ stmt v t.inLoop body
  | .switch _ e cases => expr v e ∧ switchCases v t.inSwitch cases
  | .try _ b h f => block v t b ∧ handler v t h ∧ optBlock v t f
  | .return _ e => optExpr v e
  | .break _ label => v.jumps → t.MayBreak label
  | .continue _ label => v.jumps → t.MayContinue label
  | .labeled _ label body => stmt v (t.labeled label.name body.isLoop) body
  | .with _ e body => expr v e ∧ stmt v t body
  | .importDecl .. | .exportNamed .. | .exportAll .. => v.exports
  | .exportDecl _ body => v.exports ∧ stmt v {} body
  | .exportFunction _ f => v.exports ∧ func v f
  | .exportClass _ c => v.exports ∧ classDef v c
  | .exportExpr _ e => v.exports ∧ expr v e
  | .debugger _ | .empty _ | .directive .. => True

@[reducible] def optStmt (v : Vocabulary) (t : Targets) : Option Stmt → Prop
  | some s => stmt v t s
  | none => True

@[reducible] def stmts (v : Vocabulary) (t : Targets) : List Stmt → Prop
  | [] => True
  | s :: rest => stmt v t s ∧ stmts v t rest

end

/-- An outermost statement, which may import and export. -/
def item (v : Vocabulary) : Stmt → Prop
  | .importDecl .. | .exportNamed .. | .exportAll .. => True
  | .exportDecl _ body => v.stmt {} body
  | .exportFunction _ f => v.func f
  | .exportClass _ c => v.classDef c
  | .exportExpr _ e => v.expr e
  | s => v.stmt {} s

variable {v : Vocabulary} {t : Targets}

theorem stmt_of_item {s : Stmt} (hexports : v.exports) (h : v.item s) : v.stmt {} s := by
  cases s with
  | importDecl | exportNamed | exportAll => exact hexports
  | exportDecl | exportFunction | exportClass | exportExpr => exact ⟨hexports, h⟩
  | _ => exact h

theorem function_of_func {f : Func} (h : v.func f) : v.function f := by
  obtain ⟨_, _, _, _, _, ⟨_, _⟩⟩ := f
  exact h.1

theorem stmts_of_func {f : Func} (h : v.func f) : v.stmts {} f.body.body := by
  obtain ⟨_, _, _, _, _, ⟨_, _⟩⟩ := f
  exact h.2.2

theorem item_of_stmt {s : Stmt} (h : v.stmt {} s) : v.item s := by
  cases s with
  | importDecl | exportNamed | exportAll => trivial
  | exportDecl | exportFunction | exportClass | exportExpr => exact h.2
  | _ => exact h

/-! ## Lists -/

theorem iff_forall_mem {α : Type} {P : List α → Prop} {Q : α → Prop} (hnil : P [])
    (hcons : ∀ a as, P (a :: as) ↔ Q a ∧ P as) : ∀ as, P as ↔ ∀ a ∈ as, Q a
  | [] => iff_of_true hnil nofun
  | a :: as => by rw [hcons, iff_forall_mem hnil hcons as, List.forall_mem_cons]

theorem stmts_iff {body : List Stmt} : v.stmts t body ↔ ∀ s ∈ body, v.stmt t s :=
  iff_forall_mem trivial (fun _ _ => .rfl) body

theorem exprs_iff {es : List Expr} : v.exprs es ↔ ∀ e ∈ es, v.expr e :=
  iff_forall_mem trivial (fun _ _ => .rfl) es

theorem properties_iff {ps : List Property} : v.properties ps ↔ ∀ p ∈ ps, v.properties [p] := by
  refine iff_forall_mem trivial (fun p rest => ?_) ps
  cases p with
  | spread loc e => exact ⟨fun h => ⟨⟨h.1, trivial⟩, h.2⟩, fun h => ⟨h.1.1, h.2⟩⟩
  | _ => exact ⟨fun h => ⟨⟨h.1, h.2.1, trivial⟩, h.2.2⟩, fun h => ⟨h.1.1, h.1.2.1, h.2⟩⟩

theorem pats_iff {ps : List Pat} : v.pats ps ↔ ∀ p ∈ ps, v.pat p :=
  iff_forall_mem trivial (fun _ _ => .rfl) ps

theorem declarators_iff {ds : List Declarator} :
    v.declarators ds ↔ ∀ d ∈ ds, v.pat d.target ∧ v.optExpr d.init :=
  iff_forall_mem trivial (fun ⟨_, _, _⟩ _ => and_assoc.symm) ds

theorem varDecl_iff {d : VarDecl} :
    v.varDecl d ↔ v.declarators d.declarators := by
  obtain ⟨loc, kind, ds⟩ := d
  exact .rfl

theorem switchCases_iff {cases : List SwitchCase} :
    v.switchCases t cases ↔ ∀ x ∈ cases, v.optExpr x.test ∧ v.stmts t x.body :=
  iff_forall_mem trivial (fun ⟨_, _, _⟩ _ => and_assoc.symm) cases

theorem expr_iff_items {e : Expr} : v.expr e ↔ ∀ x ∈ e.items, v.expr x := by
  cases e with
  | sequence loc es => exact exprs_iff
  | _ => exact List.forall_mem_singleton.symm

theorem expr_mkSequence {es : List Expr} (h : ∀ e ∈ es, v.expr e) : v.expr (.mkSequence es) := by
  have hall : ∀ x ∈ es.flatMap Expr.items, v.expr x := by
    intro x hx
    obtain ⟨e, he, hx⟩ := List.mem_flatMap.mp hx
    exact expr_iff_items.mp (h e he) x hx
  unfold Expr.mkSequence
  split
  · trivial
  · next heq => exact hall _ (heq ▸ List.mem_singleton_self _)
  · next heq => exact exprs_iff.mpr (heq ▸ hall)

theorem elements_iff {es : List (Option Expr)} : v.elements es ↔ ∀ e, some e ∈ es → v.expr e := by
  induction es with
  | nil => exact ⟨nofun, fun _ => trivial⟩
  | cons e rest ih =>
    cases e with
    | none => exact ih.trans (by simp)
    | some e => exact (and_congr_right' ih).trans (by simp [or_imp, forall_and])

theorem patElements_iff {ps : List (Option Pat)} :
    v.patElements ps ↔ ∀ p, some p ∈ ps → v.pat p := by
  induction ps with
  | nil => exact ⟨nofun, fun _ => trivial⟩
  | cons p rest ih =>
    cases p with
    | none => exact ih.trans (by simp)
    | some p => exact (and_congr_right' ih).trans (by simp [or_imp, forall_and])

theorem patProperties_iff {ps : List PatProperty} :
    v.patProperties ps ↔ ∀ p ∈ ps, v.patProperties [p] := by
  refine iff_forall_mem trivial (fun p rest => ?_) ps
  cases p with
  | keyValue loc key p =>
    exact ⟨fun h => ⟨⟨h.1, h.2.1, trivial⟩, h.2.2⟩, fun h => ⟨h.1.1, h.1.2.1, h.2⟩⟩
  | rest loc p => exact ⟨fun h => ⟨⟨h.1, trivial⟩, h.2⟩, fun h => ⟨h.1.1, h.2⟩⟩

theorem members_iff {ms : List Member} : v.members ms ↔ ∀ m ∈ ms, v.members [m] := by
  refine iff_forall_mem trivial (fun m rest => ?_) ms
  cases m with
  | staticBlock loc body => exact ⟨fun h => ⟨⟨h.1, trivial⟩, h.2⟩, fun h => ⟨h.1.1, h.2⟩⟩
  | _ => exact ⟨fun h => ⟨⟨h.1, h.2.1, trivial⟩, h.2.2⟩, fun h => ⟨h.1.1, h.1.2.1, h.2⟩⟩

theorem stmts_append {body rest : List Stmt} :
    v.stmts t (body ++ rest) ↔ v.stmts t body ∧ v.stmts t rest := by
  simp [stmts_iff, or_imp, forall_and]

/-! ## Surroundings -/

mutual

/-- A statement keeps to a vocabulary also where there are more targets for its jumps. -/
theorem stmt_mono {t t' : Targets} (hle : t.Le t') : ∀ s : Stmt, v.stmt t s → v.stmt t' s
  | .block b, h => block_mono hle b h
  | .if _ _ c a, h => ⟨h.1, stmt_mono hle c h.2.1, optStmt_mono hle a h.2.2⟩
  | .for _ _ _ _ body, h => ⟨h.1, h.2.1, h.2.2.1, stmt_mono hle.inLoop body h.2.2.2⟩
  | .forIn _ _ _ body, h | .forOf _ _ _ _ body, h => ⟨h.1, h.2.1, stmt_mono hle.inLoop body h.2.2⟩
  | .while _ _ body, h | .doWhile _ body _, h => ⟨h.1, stmt_mono hle.inLoop body h.2⟩
  | .switch _ _ cases, h => ⟨h.1, switchCases_mono hle.inSwitch cases h.2⟩
  | .try _ b handler final, h =>
    ⟨block_mono hle b h.1, handler_mono hle handler h.2.1, optBlock_mono hle final h.2.2⟩
  | .break _ label, h => fun hjumps => hle.breaks label (h hjumps)
  | .continue _ label, h => fun hjumps => hle.continues label (h hjumps)
  | .labeled _ label body, h => stmt_mono (hle.labeled label.name body.isLoop) body h
  | .with _ _ body, h => ⟨h.1, stmt_mono hle body h.2⟩
  | .exportDecl .., h => h
  | .varDecl _, h | .function _, h | .class _, h | .expr .., h | .return .., h | .throw .., h
  | .debugger _, h | .empty _, h | .directive .., h | .importDecl .., h | .exportNamed .., h
  | .exportFunction .., h | .exportClass .., h | .exportExpr .., h | .exportAll .., h => h

theorem optStmt_mono {t t' : Targets} (hle : t.Le t') :
    ∀ s : Option Stmt, v.optStmt t s → v.optStmt t' s
  | some s, h => stmt_mono hle s h
  | none, _ => trivial

theorem stmts_mono {t t' : Targets} (hle : t.Le t') :
    ∀ body : List Stmt, v.stmts t body → v.stmts t' body
  | [], _ => trivial
  | s :: rest, h => ⟨stmt_mono hle s h.1, stmts_mono hle rest h.2⟩

theorem block_mono {t t' : Targets} (hle : t.Le t') : ∀ b : Block, v.block t b → v.block t' b
  | ⟨_, body⟩, h => stmts_mono hle body h

theorem optBlock_mono {t t' : Targets} (hle : t.Le t') :
    ∀ b : Option Block, v.optBlock t b → v.optBlock t' b
  | some b, h => block_mono hle b h
  | none, _ => trivial

theorem handler_mono {t t' : Targets} (hle : t.Le t') :
    ∀ h : Option Handler, v.handler t h → v.handler t' h
  | some ⟨_, _, b⟩, h => ⟨h.1, block_mono hle b h.2⟩
  | none, _ => trivial

theorem switchCases_mono {t t' : Targets} (hle : t.Le t') :
    ∀ cases : List SwitchCase, v.switchCases t cases → v.switchCases t' cases
  | [], _ => trivial
  | ⟨_, _, body⟩ :: rest, h => ⟨h.1, stmts_mono hle body h.2.1, switchCases_mono hle rest h.2.2⟩

end

end Vocabulary

end Laconic
