import Laconic.Proofs.Scope.Resolve
import Laconic.Proofs.Tree.Rewriting
import Laconic.Proofs.Tree.Wording

/-!
# Changes that keep to a vocabulary

A program whose names are changed keeps to the vocabularies that it kept to, provided that they
do not tell functions apart by the names in them, and so does a program that is rewritten by a
rewriter that keeps to them.
-/

namespace Laconic

namespace Vocabulary

variable {v : Vocabulary} {t : Targets} {σ : Type}

abbrev Kept {α : Type} (change : α → StateM σ α) (P : α → Prop) (a : α) : Prop :=
  P a → Gives (change a) P

/-! ## Changed names -/

/-- A function that may be there may be so with other names. -/
structure NamedBy (v : Vocabulary) (g : Ident → StateM σ Ident) : Prop where
  function : ∀ named f, v.function f → Gives ((NameMap.ofIdent g).func named f) v.function

namespace NamedBy

variable {g : Ident → StateM σ Ident}

theorem isNone_ownName (named : Bool) (id : Option Ident) :
    Gives ((NameMap.ofIdent g).ownName named id) fun new => new.isNone = id.isNone := by
  cases named with
  | false => exact .pure rfl
  | true =>
    cases id with
    | none => exact .pure rfl
    | some id => exact Gives.bind .unknown fun _ _ => .pure rfl

theorem isLoop_named (s : Stmt) :
    Gives ((NameMap.ofIdent g).stmt s) fun new => new.isLoop = s.isLoop := by
  intro state
  cases s with
  | exportNamed loc specifiers source => cases source <;> rfl
  | _ => rfl

mutual

theorem expr (k : v.NamedBy g) : ∀ e, Kept (NameMap.ofIdent g).expr v.expr e
  | .null _, h | .bool .., h | .num .., h | .str _, h | .bigint .., h | .regexp .., h
  | .super _, h | .metaProperty .., h | .this _, h => .pure h
  | .ident _, _ => Gives.bind .unknown fun _ _ => .pure trivial
  | .template _ _ es, h | .sequence _ es, h => .one (k.exprs es h)
  | .array _ es, h => .one (k.elements es h)
  | .object _ ps, h =>
    (k.properties ps h.2).bind fun _ hps => .pure ⟨fun hv => hps.2.trans (h.1 hv), hps.1⟩
  | .function f, h => (k.func true f h).bind fun _ hf => .pure hf.1
  | .arrow a, h => .one (k.arrow a h)
  | .class c, h => .one (k.classDef c h)
  | .unary _ _ e, h | .chain _ e, h | .spread _ e, h | .await _ e, h => .one (k.expr e h)
  | .update _ _ _ e, h => by
    rw [ofIdent_update]
    exact .one (k.expr e h)
  | .binary _ _ a b, h | .logical _ _ a b, h => .two (k.expr a h.1) (k.expr b h.2)
  | .conditional _ t c a, h => .three (k.expr t h.1) (k.expr c h.2.1) (k.expr a h.2.2)
  | .assign _ _ p e, h => .two (k.pat p h.1) (k.expr e h.2)
  | .member _ _ o p, h => .two (k.expr o h.1) (k.propName p h.2)
  | .call _ _ _ e es, h | .new _ _ e es, h | .tagged _ e _ _ es, h =>
    .two (k.expr e h.1) (k.exprs es h.2)
  | .yield _ _ e, h => .one (k.optExpr e h)
  | .importCall _ e options, h => .two (k.expr e h.1) (k.optExpr options h.2)

theorem optExpr (k : v.NamedBy g) : ∀ e, Kept (NameMap.ofIdent g).optExpr v.optExpr e
  | some e, h => .one (k.expr e h)
  | none, h => .pure h

theorem exprs (k : v.NamedBy g) : ∀ es, Kept (NameMap.ofIdent g).exprs v.exprs es
  | [], h => .pure h
  | e :: rest, h => .two (k.expr e h.1) (k.exprs rest h.2)

theorem elements (k : v.NamedBy g) : ∀ es, Kept (NameMap.ofIdent g).elements v.elements es
  | [], h => .pure h
  | some e :: rest, h => .two (k.expr e h.1) (k.elements rest h.2)
  | none :: rest, h => .one (k.elements rest h)

theorem propName (k : v.NamedBy g) : ∀ p, Kept ((NameMap.ofIdent g).propName pure) v.propName p
  | .computed e, h => (k.expr e h).bind fun _ he => .pure he
  | .ident _, h | .privateName .., h | .str _, h | .num .., h => .pure h

theorem properties (k : v.NamedBy g) : ∀ ps : List Property, v.properties ps →
    Gives ((NameMap.ofIdent g).properties ps) fun new => v.properties new
      ∧ new.all Property.methodUnnamed = ps.all Property.methodUnnamed
  | [], h => .pure ⟨h, rfl⟩
  | .value _ key e :: rest, h =>
    .three (k.propName key h.1) (k.expr e h.2.1) (k.properties rest h.2.2)
      fun _ _ _ h => ⟨⟨h.1, h.2.1, h.2.2.1⟩, h.2.2.2⟩
  | .getter _ key f :: rest, h | .setter _ key f :: rest, h | .method _ key f :: rest, h =>
    .three (k.propName key h.1) (k.func false f h.2.1) (k.properties rest h.2.2)
      fun _ _ _ h => ⟨⟨h.1, h.2.1.1, h.2.2.1⟩, congrArg₂ and h.2.1.2 h.2.2.2⟩
  | .spread _ e :: rest, h =>
    .two (k.expr e h.1) (k.properties rest h.2) fun _ _ h => ⟨⟨h.1, h.2.1⟩, h.2.2⟩

theorem func (k : v.NamedBy g) (named : Bool) : ∀ f : Func, v.func f →
    Gives ((NameMap.ofIdent g).func named f) fun new => v.func new
      ∧ new.id.isNone = f.id.isNone
  | ⟨loc, id, isAsync, isGenerator, ps, ⟨bodyLoc, body⟩⟩, h => by
    have hparts : Gives ((NameMap.ofIdent g).func named
        ⟨loc, id, isAsync, isGenerator, ps, ⟨bodyLoc, body⟩⟩) fun new =>
          new.id.isNone = id.isNone ∧ v.pats new.params ∧ v.block {} new.body :=
      .three (isNone_ownName named id) (k.pats ps h.2.1) (k.block ⟨bodyLoc, body⟩ h.2.2)
    refine (hparts.and (k.function named _ h.1)).mono ?_
    rintro ⟨_, _, _, _, _, ⟨_, _⟩⟩ ⟨⟨hid, hps, hb⟩, hf⟩
    exact ⟨⟨hf, hps, hb⟩, hid⟩

theorem arrow (k : v.NamedBy g) : ∀ a, Kept (NameMap.ofIdent g).arrow v.arrow a
  | ⟨_, _, ps, .block ⟨bodyLoc, body⟩⟩, h =>
    (k.pats ps h.1).bind fun _ hps => (k.block ⟨bodyLoc, body⟩ h.2).bind fun ⟨_, _⟩ hb =>
      .pure ⟨hps, hb⟩
  | ⟨_, _, ps, .expr e⟩, h => .two (k.pats ps h.1) (k.expr e h.2)

theorem block (k : v.NamedBy g) {t : Targets} : ∀ b, Kept (NameMap.ofIdent g).block (v.block t) b
  | ⟨_, body⟩, h => .one (k.stmts body h)

theorem classDef (k : v.NamedBy g) : ∀ c, Kept (NameMap.ofIdent g).classDef v.classDef c
  | ⟨_, _, superClass, body⟩, h =>
    Gives.bind .unknown fun _ _ =>
      .two (k.optExpr superClass h.2.1) (k.members body h.2.2)
        fun _ _ hnew => ⟨fun hv => hnew.2.2.trans (h.1 hv), hnew.1, hnew.2.1⟩

theorem members (k : v.NamedBy g) : ∀ ms : List Member, v.members ms →
    Gives ((NameMap.ofIdent g).members ms) fun new => v.members new
      ∧ new.all Member.methodUnnamed = ms.all Member.methodUnnamed
  | [], h => .pure ⟨h, rfl⟩
  | .method _ _ _ key f :: rest, h =>
    .three (k.propName key h.1) (k.func false f h.2.1) (k.members rest h.2.2)
      fun _ _ _ h => ⟨⟨h.1, h.2.1.1, h.2.2.1⟩, congrArg₂ and h.2.1.2 h.2.2.2⟩
  | .property _ _ key e :: rest, h =>
    .three (k.propName key h.1) (k.optExpr e h.2.1) (k.members rest h.2.2)
      fun _ _ _ h => ⟨⟨h.1, h.2.1, h.2.2.1⟩, h.2.2.2⟩
  | .staticBlock _ body :: rest, h =>
    .two (k.stmts body h.1) (k.members rest h.2) fun _ _ h => ⟨⟨h.1, h.2.1⟩, h.2.2⟩

theorem pat (k : v.NamedBy g) : ∀ p, Kept (NameMap.ofIdent g).pat v.pat p
  | .ident _, _ => Gives.bind .unknown fun _ _ => .pure trivial
  | .array _ ps, h => .one (k.patElements ps h)
  | .object _ ps, h => .one (k.patProperties ps h)
  | .rest _ p, h => .one (k.pat p h)
  | .assign _ p e, h => .two (k.pat p h.1) (k.expr e h.2)
  | .expr e, h => .one (k.expr e h)

theorem optParam (k : v.NamedBy g) : ∀ p, Kept (NameMap.ofIdent g).optPat v.optParam p
  | some p, h => .one (k.pat p h)
  | none, h => .pure h

theorem pats (k : v.NamedBy g) : ∀ ps, Kept (NameMap.ofIdent g).pats v.pats ps
  | [], h => .pure h
  | p :: rest, h => .two (k.pat p h.1) (k.pats rest h.2)

theorem patElements (k : v.NamedBy g) :
    ∀ ps, Kept (NameMap.ofIdent g).patElements v.patElements ps
  | [], h => .pure h
  | some p :: rest, h => .two (k.pat p h.1) (k.patElements rest h.2)
  | none :: rest, h => .one (k.patElements rest h)

theorem patProperties (k : v.NamedBy g) :
    ∀ ps, Kept (NameMap.ofIdent g).patProperties v.patProperties ps
  | [], h => .pure h
  | .keyValue _ key p :: rest, h =>
    .three (k.propName key h.1) (k.pat p h.2.1) (k.patProperties rest h.2.2)
  | .rest _ p :: rest, h => .two (k.pat p h.1) (k.patProperties rest h.2)

theorem varDecl (k : v.NamedBy g) : ∀ d, Kept (NameMap.ofIdent g).varDecl v.varDecl d
  | ⟨_, _, ds⟩, h => .one (k.declarators ds h)

theorem declarators (k : v.NamedBy g) :
    ∀ ds, Kept (NameMap.ofIdent g).declarators v.declarators ds
  | [], h => .pure h
  | ⟨_, p, e⟩ :: rest, h => .three (k.pat p h.1) (k.optExpr e h.2.1) (k.declarators rest h.2.2)

theorem forInit (k : v.NamedBy g) : ∀ i, Kept (NameMap.ofIdent g).forInit v.forInit i
  | .none, h => .pure h
  | .decl d, h => .one (k.varDecl d h)
  | .expr e, h => .one (k.expr e h)

theorem forTarget (k : v.NamedBy g) : ∀ t, Kept (NameMap.ofIdent g).forTarget v.forTarget t
  | .decl d, h => .one (k.varDecl d h)
  | .pat p, h => .one (k.pat p h)

theorem switchCases (k : v.NamedBy g) {t : Targets} :
    ∀ cs, Kept (NameMap.ofIdent g).switchCases (v.switchCases t) cs
  | [], h => .pure h
  | ⟨_, test, body⟩ :: rest, h =>
    .three (k.optExpr test h.1) (k.stmts body h.2.1) (k.switchCases rest h.2.2)

theorem handler (k : v.NamedBy g) {t : Targets} :
    ∀ h, Kept (NameMap.ofIdent g).handler (v.handler t) h
  | none, h => .pure h
  | some ⟨_, param, b⟩, h => .two (k.optParam param h.1) (k.block b h.2)

theorem optBlock (k : v.NamedBy g) {t : Targets} :
    ∀ b, Kept (NameMap.ofIdent g).optBlock (v.optBlock t) b
  | none, h => .pure h
  | some b, h => .one (k.block b h)

theorem stmt (k : v.NamedBy g) {t : Targets} : ∀ s, Kept (NameMap.ofIdent g).stmt (v.stmt t) s
  | .block b, h => .one (k.block b h)
  | .varDecl d, h => .one (k.varDecl d h)
  | .function f, h => (k.func true f h).bind fun _ hf => .pure hf.1
  | .class c, h => .one (k.classDef c h)
  | .expr _ e, h | .throw _ e, h => .one (k.expr e h)
  | .if _ test c a, h => .three (k.expr test h.1) (k.stmt c h.2.1) (k.optStmt a h.2.2)
  | .for _ init test update body, h =>
    .four (k.forInit init h.1) (k.optExpr test h.2.1) (k.optExpr update h.2.2.1)
      (k.stmt body h.2.2.2)
  | .forIn _ target e body, h | .forOf _ _ target e body, h =>
    .three (k.forTarget target h.1) (k.expr e h.2.1) (k.stmt body h.2.2)
  | .while _ test body, h => .two (k.expr test h.1) (k.stmt body h.2)
  | .doWhile _ body test, h =>
    .two (k.stmt body h.2) (k.expr test h.1) fun _ _ h => ⟨h.2, h.1⟩
  | .switch _ e cases, h => .two (k.expr e h.1) (k.switchCases cases h.2)
  | .try _ b caught final, h =>
    .three (k.block b h.1) (k.handler caught h.2.1) (k.optBlock final h.2.2)
  | .return _ e, h => .one (k.optExpr e h)
  | .labeled _ label body, h =>
    ((k.stmt body h).and (isLoop_named body)).one fun new hnew =>
      show v.stmt (t.labeled label.name new.isLoop) new from
        hnew.2 ▸ hnew.1
  | .with _ e body, h => .two (k.expr e h.1) (k.stmt body h.2)
  | .importDecl .., h | .exportNamed _ _ none, h => Gives.bind .unknown fun _ _ => .pure h
  | .exportDecl _ body, h => (k.stmt body h.2).bind fun _ hs => .pure ⟨h.1, hs⟩
  | .exportFunction _ f, h => (k.func true f h.2).bind fun _ hf => .pure ⟨h.1, hf.1⟩
  | .exportClass _ c, h => (k.classDef c h.2).bind fun _ hc => .pure ⟨h.1, hc⟩
  | .exportExpr _ e, h => (k.expr e h.2).bind fun _ he => .pure ⟨h.1, he⟩
  | .break .., h | .continue .., h | .debugger _, h | .empty _, h | .directive .., h
  | .exportNamed _ _ (some _), h | .exportAll .., h => .pure h

theorem optStmt (k : v.NamedBy g) {t : Targets} :
    ∀ s, Kept (NameMap.ofIdent g).optStmt (v.optStmt t) s
  | some s, h => .one (k.stmt s h)
  | none, h => .pure h

theorem stmts (k : v.NamedBy g) {t : Targets} :
    ∀ body, Kept (NameMap.ofIdent g).stmts (v.stmts t) body
  | [], h => .pure h
  | s :: rest, h => .two (k.stmt s h.1) (k.stmts rest h.2)

end

end NamedBy

theorem stmts_of_resolve (hv : v.NamedBy Program.bindNext) {ie8 : Bool} {p q : Program}
    {tree : ScopeTree} (h : v.stmts t p.body) (hresolve : resolve ie8 p = .ok (q, tree)) :
    v.stmts t q.body := by
  obtain ⟨_, _, _, _, _, symbols, _, rfl⟩ := runs_of_resolve hresolve
  exact hv.stmts p.body h symbols

/-! ## Rewritten trees -/

theorem stmt_toStmt {o : Outcome Stmt} (h : o.All (v.stmt t)) (loc : Span) :
    v.stmt t (o.toStmt loc) := by
  cases o with
  | one s => exact h
  | gone => trivial
  | many body => exact stmts_iff.mpr h

theorem expr_toExpr {o : Outcome Expr} (h : o.All v.expr) (loc : Span) : v.expr (o.toExpr loc) := by
  cases o with
  | one e => exact h
  | gone => trivial
  | many es =>
    cases es with
    | nil => trivial
    | cons e es => exact expr_mkSequence h

section Rewritten

variable {r : Rewriter σ} {n : Newcomers σ} {e : Expr}

theorem rewritten_update {loc : Span} {op : UpdateOp} {before : Bool} (he : v.expr e)
    (hparts : Gives (r.exprParts n e) v.expr) :
    Gives (r.exprParts n (.update loc op before e)) v.expr := by
  cases e with
  | member mloc optional o k => exact hparts
  | _ => exact .pure he

theorem rewritten_targetExpr (he : v.expr e) (hparts : Gives (r.exprParts n e) v.expr) :
    Gives (r.pat n (.expr e)) v.pat := by
  cases e with
  | member mloc optional o k => exact hparts
  | _ => exact .pure he

structure KeptBy (v : Vocabulary) (r : Rewriter σ) : Prop where
  keeps : r.Keeps v.stmt v.expr
  /-- A function that is rewritten may be there whatever becomes of its parts. -/
  enters : ∀ f, v.function f → Gives (r.enterFunction f) fun enters => enters = true →
    ∀ ps body, v.function ⟨f.loc, f.id, f.isAsync, f.isGenerator, ps, ⟨f.body.loc, body⟩⟩
  /-- A loop stays one unless all that is left of it is free of jumps. -/
  loops : ∀ t s, s.isLoop = true → v.stmt t s → Gives (r.afterStmt s) fun a =>
    (∃ s', a.settle s = .one s' ∧ s'.isLoop = true) ∨ ∀ t', (a.settle s).All (v.stmt t')

/-- A rewriter keeps to a vocabulary, and so does its treatment of newcomers. -/
structure Rewrites (v : Vocabulary) (r : Rewriter σ) (n : Newcomers σ) : Prop where
  rewriter : v.KeptBy r
  newcomers : n.Keeps v.expr

theorem isLoop_rewritten (s : Stmt) : Gives (r.stmtParts n s) fun new => new.isLoop = s.isLoop := by
  intro state
  cases s <;> rfl

namespace Rewrites

theorem stmtSlot (k : v.Rewrites r n) (s : Stmt) {parts : StateM σ Stmt}
    (hparts : Gives parts (v.stmt t)) : Gives (r.stmtSlot n s parts) (v.stmt t) :=
  (k.rewriter.keeps.processStmt s hparts).bind fun _ ho => .pure (stmt_toStmt ho s.loc)

theorem labeledSlot (k : v.Rewrites r n) (s : Stmt) {name : String}
    (hparts : Gives (r.stmtParts n s) (v.stmt (t.labeled name s.isLoop))) :
    Gives (r.stmtSlot n s (r.stmtParts n s)) fun new => v.stmt (t.labeled name new.isLoop) new := by
  cases hloop : s.isLoop with
  | false =>
    rw [hloop] at hparts
    refine (k.stmtSlot s hparts).mono fun new hnew => ?_
    cases hnew' : new.isLoop with
    | false => exact hnew
    | true => exact stmt_mono (.labeled_loop t name false) new hnew
  | true =>
    rw [hloop] at hparts
    unfold Rewriter.stmtSlot
    rw [k.rewriter.keeps.processStmt_eq]
    have houtcome : Gives (r.finishStmt (r.stmtParts n s)) fun o => ∀ loc,
        v.stmt (t.labeled name (o.toStmt loc).isLoop) (o.toStmt loc) := by
      refine (hparts.and (isLoop_rewritten s)).bind fun new hnew => ?_
      obtain ⟨hnew, hsame⟩ := hnew
      rw [hloop] at hsame
      refine ((k.rewriter.loops _ new hsame hnew).and
        (k.rewriter.keeps.afterStmt _ new hnew)).bind fun a ha => .pure fun loc => ?_
      obtain ⟨⟨s', hs', hstays⟩ | hfree, hall⟩ := ha
      · have hs'' := hall.settle hnew
        rw [hs'] at hs'' ⊢
        show v.stmt (t.labeled name s'.isLoop) s'
        rw [hstays]
        exact hs''
      · exact stmt_toStmt (hfree _) loc
    exact houtcome.bind fun o ho => .pure (ho s.loc)

theorem exprSlot (k : v.Rewrites r n) (e : Expr) {parts : StateM σ Expr} (he : v.expr e)
    (hparts : Gives parts v.expr) : Gives (r.exprSlot n e parts) v.expr :=
  (k.rewriter.keeps.processExpr k.newcomers he hparts).bind fun _ ho => .pure (expr_toExpr ho e.loc)

theorem slot (k : v.Rewrites r n) {e : Expr} (hparts : v.expr e → Gives (r.exprParts n e) v.expr)
    (he : v.expr e) : Gives (r.exprSlot n e (r.exprParts n e)) v.expr :=
  k.exprSlot e he (hparts he)

theorem list (k : v.Rewrites r n) (kind : BodyKind) {body : List Stmt} (h : v.stmts t body) :
    Gives (r.afterStmts kind body) (v.stmts t) :=
  (k.rewriter.keeps.afterStmts t kind body (stmts_iff.mp h)).mono fun _ => stmts_iff.mpr

mutual

theorem expr (k : v.Rewrites r n) : ∀ e, Kept (r.exprParts n) v.expr e
  | .null _, h | .bool .., h | .num .., h | .str _, h | .bigint .., h | .regexp .., h
  | .super _, h | .metaProperty .., h | .this _, h | .ident _, h => .pure h
  | .template _ _ es, h | .sequence _ es, h => .one (k.exprs es h)
  | .array _ es, h => .one (k.elements es h)
  | .object _ ps, h =>
    (k.properties ps h.2).bind fun _ hps => .pure ⟨fun hv => hps.2.trans (h.1 hv), hps.1⟩
  | .function f, h => (k.func f h).bind fun _ hf => .pure hf.1
  | .arrow a, h => .one (k.arrow a h)
  | .class c, h => .one (k.classDef c h)
  | .unary _ _ e, h | .chain _ e, h | .spread _ e, h | .await _ e, h => .one (k.slot (k.expr e) h)
  | .update _ _ _ e, h => rewritten_update h (k.expr e h)
  | .binary _ _ a b, h | .logical _ _ a b, h => .two (k.slot (k.expr a) h.1) (k.slot (k.expr b) h.2)
  | .conditional _ t c a, h =>
    .three (k.slot (k.expr t) h.1) (k.slot (k.expr c) h.2.1) (k.slot (k.expr a) h.2.2)
  | .assign _ _ p e, h => .two (k.pat p h.1) (k.slot (k.expr e) h.2)
  | .member _ _ o p, h => .two (k.slot (k.expr o) h.1) (k.propName p h.2)
  | .call _ _ _ e es, h | .new _ _ e es, h | .tagged _ e _ _ es, h =>
    .two (k.slot (k.expr e) h.1) (k.exprs es h.2)
  | .yield _ _ e, h => .one (k.optExpr e h)
  | .importCall _ e options, h => .two (k.slot (k.expr e) h.1) (k.optExpr options h.2)

theorem optExpr (k : v.Rewrites r n) : ∀ e, Kept (r.optExpr n) v.optExpr e
  | some e, h => .one (k.slot (k.expr e) h)
  | none, h => .pure h

theorem exprs (k : v.Rewrites r n) : ∀ es, Kept (r.exprs n) v.exprs es
  | [], h => .pure h
  | e :: rest, h => .two (k.slot (k.expr e) h.1) (k.exprs rest h.2)

theorem elements (k : v.Rewrites r n) : ∀ es, Kept (r.elements n) v.elements es
  | [], h => .pure h
  | some e :: rest, h => .two (k.slot (k.expr e) h.1) (k.elements rest h.2)
  | none :: rest, h => .one (k.elements rest h)

theorem propName (k : v.Rewrites r n) : ∀ p, Kept (r.propName n) v.propName p
  | .computed e, h => .one (k.slot (k.expr e) h)
  | .ident _, h | .privateName .., h | .str _, h | .num .., h => .pure h

theorem properties (k : v.Rewrites r n) : ∀ ps : List Property, v.properties ps →
    Gives (r.properties n ps) fun new => v.properties new
      ∧ new.all Property.methodUnnamed = ps.all Property.methodUnnamed
  | [], h => .pure ⟨h, rfl⟩
  | .value _ key e :: rest, h =>
    .three (k.propName key h.1) (k.slot (k.expr e) h.2.1) (k.properties rest h.2.2)
      fun _ _ _ h => ⟨⟨h.1, h.2.1, h.2.2.1⟩, h.2.2.2⟩
  | .getter _ key f :: rest, h | .setter _ key f :: rest, h | .method _ key f :: rest, h =>
    .three (k.propName key h.1) (k.func f h.2.1) (k.properties rest h.2.2)
      fun _ _ _ h => ⟨⟨h.1, h.2.1.1, h.2.2.1⟩,
        congrArg₂ and (congrArg Option.isNone h.2.1.2) h.2.2.2⟩
  | .spread _ e :: rest, h =>
    .two (k.slot (k.expr e) h.1) (k.properties rest h.2) fun _ _ h => ⟨⟨h.1, h.2.1⟩, h.2.2⟩

theorem func (k : v.Rewrites r n) :
    ∀ f : Func, v.func f → Gives (r.func n f) fun new => v.func new ∧ new.id = f.id
  | ⟨loc, id, isAsync, isGenerator, ps, ⟨bodyLoc, body⟩⟩, h =>
    (k.rewriter.enters _ h.1).bind fun enters henters => by
      cases enters with
      | false => exact .pure ⟨h, rfl⟩
      | true =>
        exact (k.pats ps h.2.1).bind fun ps' hps => (k.stmts body h.2.2).bind fun _ hbody =>
          (k.list .function hbody).bind fun body' hbody =>
            Gives.bind .unknown fun _ _ => .pure ⟨⟨henters rfl ps' body', hps, hbody⟩, rfl⟩

theorem arrow (k : v.Rewrites r n) : ∀ a, Kept (r.arrow n) v.arrow a
  | ⟨loc, isAsync, ps, .block ⟨bodyLoc, body⟩⟩, h =>
    Gives.bind .unknown fun enters _ => by
      cases enters with
      | false => exact .pure h
      | true =>
        exact (k.pats ps h.1).bind fun _ hps => (k.stmts body h.2).bind fun _ hbody =>
          (k.list .function hbody).bind fun _ hbody =>
            Gives.bind .unknown fun _ _ => .pure ⟨hps, hbody⟩
  | ⟨loc, isAsync, ps, .expr e⟩, h =>
    Gives.bind .unknown fun enters _ => by
      cases enters with
      | false => exact .pure h
      | true =>
        exact (k.pats ps h.1).bind fun _ hps =>
          (k.slot (k.expr e) h.2).bind fun _ he =>
            Gives.bind .unknown fun _ _ => .pure ⟨hps, he⟩

theorem block (k : v.Rewrites r n) {t : Targets} : ∀ b, Kept (r.block n) (v.block t) b
  | ⟨_, body⟩, h =>
    (k.stmts body h).bind fun _ h => .one (k.list .block h)

theorem classDef (k : v.Rewrites r n) : ∀ c, Kept (r.classDef n) v.classDef c
  | ⟨_, _, superClass, body⟩, h =>
    .two (k.optExpr superClass h.2.1) (k.members body h.2.2)
      fun _ _ hnew => ⟨fun hv => hnew.2.2.trans (h.1 hv), hnew.1, hnew.2.1⟩

theorem members (k : v.Rewrites r n) : ∀ ms : List Member, v.members ms →
    Gives (r.members n ms) fun new => v.members new
      ∧ new.all Member.methodUnnamed = ms.all Member.methodUnnamed
  | [], h => .pure ⟨h, rfl⟩
  | .method _ _ _ key f :: rest, h =>
    .three (k.propName key h.1) (k.func f h.2.1) (k.members rest h.2.2)
      fun _ _ _ h => ⟨⟨h.1, h.2.1.1, h.2.2.1⟩,
        congrArg₂ and (congrArg Option.isNone h.2.1.2) h.2.2.2⟩
  | .property _ _ key e :: rest, h =>
    .three (k.propName key h.1) (k.optExpr e h.2.1) (k.members rest h.2.2)
      fun _ _ _ h => ⟨⟨h.1, h.2.1, h.2.2.1⟩, h.2.2.2⟩
  | .staticBlock _ body :: rest, h =>
    (k.stmts body h.1).bind fun _ hbody => (k.list .staticBlock hbody).bind fun _ hbody =>
      (k.members rest h.2).bind fun _ hr => .pure ⟨⟨hbody, hr.1⟩, hr.2⟩

theorem pat (k : v.Rewrites r n) : ∀ p, Kept (r.pat n) v.pat p
  | .ident _, h => .pure h
  | .array _ ps, h => .one (k.patElements ps h)
  | .object _ ps, h => .one (k.patProperties ps h)
  | .rest _ p, h => .one (k.pat p h)
  | .assign _ p e, h => .two (k.pat p h.1) (k.slot (k.expr e) h.2)
  | .expr e, h => rewritten_targetExpr h (k.expr e h)

theorem optParam (k : v.Rewrites r n) : ∀ p, Kept (r.optPat n) v.optParam p
  | some p, h => .one (k.pat p h)
  | none, h => .pure h

theorem pats (k : v.Rewrites r n) : ∀ ps, Kept (r.pats n) v.pats ps
  | [], h => .pure h
  | p :: rest, h => .two (k.pat p h.1) (k.pats rest h.2)

theorem patElements (k : v.Rewrites r n) : ∀ ps, Kept (r.patElements n) v.patElements ps
  | [], h => .pure h
  | some p :: rest, h => .two (k.pat p h.1) (k.patElements rest h.2)
  | none :: rest, h => .one (k.patElements rest h)

theorem patProperties (k : v.Rewrites r n) :
    ∀ ps, Kept (r.patProperties n) v.patProperties ps
  | [], h => .pure h
  | .keyValue _ key p :: rest, h =>
    .three (k.propName key h.1) (k.pat p h.2.1) (k.patProperties rest h.2.2)
  | .rest _ p :: rest, h => .two (k.pat p h.1) (k.patProperties rest h.2)

theorem varDecl (k : v.Rewrites r n) : ∀ d, Kept (r.varDecl n) v.varDecl d
  | ⟨_, _, ds⟩, h => .one (k.declarators ds h)

theorem declarators (k : v.Rewrites r n) : ∀ ds, Kept (r.declarators n) v.declarators ds
  | [], h => .pure h
  | ⟨_, p, e⟩ :: rest, h => .three (k.pat p h.1) (k.optExpr e h.2.1) (k.declarators rest h.2.2)

theorem forInit (k : v.Rewrites r n) : ∀ i, Kept (r.forInit n) v.forInit i
  | .none, h => .pure h
  | .decl d, h => .one (k.varDecl d h)
  | .expr e, h => .one (k.slot (k.expr e) h)

theorem forTarget (k : v.Rewrites r n) : ∀ t, Kept (r.forTarget n) v.forTarget t
  | .decl d, h => .one (k.varDecl d h)
  | .pat p, h => .one (k.pat p h)

theorem switchCases (k : v.Rewrites r n) {t : Targets} :
    ∀ cs, Kept (r.switchCases n) (v.switchCases t) cs
  | [], h => .pure h
  | ⟨_, test, body⟩ :: rest, h =>
    (k.optExpr test h.1).bind fun _ ht => (k.stmts body h.2.1).bind fun _ hbody =>
      (k.list .case hbody).bind fun _ hbody =>
        (k.switchCases rest h.2.2).bind fun _ hr => .pure ⟨ht, hbody, hr⟩

theorem handler (k : v.Rewrites r n) {t : Targets} : ∀ h, Kept (r.handler n) (v.handler t) h
  | none, h => .pure h
  | some ⟨_, param, b⟩, h => .two (k.optParam param h.1) (k.block b h.2)

theorem optBlock (k : v.Rewrites r n) {t : Targets} : ∀ b, Kept (r.optBlock n) (v.optBlock t) b
  | none, h => .pure h
  | some b, h => .one (k.block b h)

theorem stmt (k : v.Rewrites r n) {t : Targets} : ∀ s, Kept (r.stmtParts n) (v.stmt t) s
  | .block b, h => .one (k.block b h)
  | .varDecl d, h => .one (k.varDecl d h)
  | .function f, h => (k.func f h).bind fun _ hf => .pure hf.1
  | .class c, h => .one (k.classDef c h)
  | .expr _ e, h | .throw _ e, h => .one (k.slot (k.expr e) h)
  | .if _ test c a, h =>
    .three (k.slot (k.expr test) h.1) (k.stmtSlot c (k.stmt c h.2.1)) (k.optStmt a h.2.2)
  | .for _ init test update body, h =>
    .four (k.forInit init h.1) (k.optExpr test h.2.1) (k.optExpr update h.2.2.1)
      (k.stmtSlot body (k.stmt body h.2.2.2))
  | .forIn _ target e body, h | .forOf _ _ target e body, h =>
    .three (k.forTarget target h.1) (k.slot (k.expr e) h.2.1) (k.stmtSlot body (k.stmt body h.2.2))
  | .while _ test body, h => .two (k.slot (k.expr test) h.1) (k.stmtSlot body (k.stmt body h.2))
  | .doWhile _ body test, h =>
    (k.stmtSlot body (k.stmt body h.2)).bind fun _ hb =>
      (k.slot (k.expr test) h.1).bind fun _ ht => .pure ⟨ht, hb⟩
  | .switch _ e cases, h => .two (k.slot (k.expr e) h.1) (k.switchCases cases h.2)
  | .try _ b caught final, h =>
    .three (k.block b h.1) (k.handler caught h.2.1) (k.optBlock final h.2.2)
  | .return _ e, h => .one (k.optExpr e h)
  | .labeled _ _ body, h => .one (k.labeledSlot body (k.stmt body h))
  | .exportDecl _ body, h =>
    (k.stmtSlot body (k.stmt body h.2)).bind fun _ hs => .pure ⟨h.1, hs⟩
  | .exportFunction _ f, h => (k.func f h.2).bind fun _ hf => .pure ⟨h.1, hf.1⟩
  | .exportClass _ c, h => (k.classDef c h.2).bind fun _ hc => .pure ⟨h.1, hc⟩
  | .exportExpr _ e, h => (k.slot (k.expr e) h.2).bind fun _ he => .pure ⟨h.1, he⟩
  | .with _ e body, h => .two (k.slot (k.expr e) h.1) (k.stmtSlot body (k.stmt body h.2))
  | .break .., h | .continue .., h | .debugger _, h | .empty _, h | .directive .., h
  | .importDecl .., h | .exportNamed .., h | .exportAll .., h => .pure h

theorem optStmt (k : v.Rewrites r n) {t : Targets} : ∀ s, Kept (r.optStmt n) (v.optStmt t) s
  | some s, h => .one (k.stmtSlot s (k.stmt s h))
  | none, h => .pure h

theorem stmts (k : v.Rewrites r n) {t : Targets} : ∀ body, Kept (r.stmts n) (v.stmts t) body
  | [], h => .pure h
  | s :: rest, h =>
    (k.rewriter.keeps.processStmt s (k.stmt s h.1)).bind fun _ hs =>
      (k.stmts rest h.2).bind fun _ hr =>
        .pure (stmts_append.mpr ⟨stmts_iff.mpr hs.toList, hr⟩)

end

end Rewrites

end Rewritten

section Whole

variable {r : Rewriter σ}

theorem keeps_newcomers (hr : v.KeptBy r) (depth : Nat) : (r.newcomers depth).Keeps v.expr := by
  induction depth with
  | zero => exact fun _ h => .pure h
  | succ depth ih =>
    have k : v.Rewrites r (r.newcomers depth) := ⟨hr, ih⟩
    exact fun e h => hr.keeps.finishExpr (k.expr e h)

theorem gives_expr (hr : v.KeptBy r) (depth : Nat) {e : Expr} (h : v.expr e) :
    Gives (r.expr depth e) v.expr :=
  have k : v.Rewrites r (r.newcomers depth) := ⟨hr, keeps_newcomers hr depth⟩
  k.exprSlot e h (k.expr e h)

theorem gives_program (hr : v.KeptBy r) (depth : Nat) {p : Program} (h : v.stmts t p.body) :
    Gives (r.program depth p) fun q => v.stmts t q.body :=
  have k : v.Rewrites r (r.newcomers depth) := ⟨hr, keeps_newcomers hr depth⟩
  (k.stmts p.body h).bind fun _ h => .one (k.list .program h)

end Whole

end Vocabulary

namespace Program

variable {p q : Program}

theorem methodsUnnamed_mapIdentsM {σ : Type} (g : Ident → StateM σ Ident)
    (h : p.methodsUnnamed = true) (state : σ) :
    (p.mapIdentsM g state).1.methodsUnnamed = true := by
  have hnamed : unnamedMethods.NamedBy g := ⟨fun _ _ _ => .unknown⟩
  rw [methodsUnnamed_iff] at h ⊢
  exact hnamed.stmts p.body h state

theorem methodsUnnamed_mapIdents (g : Ident → Ident) (h : p.methodsUnnamed = true) :
    (p.mapIdents g).methodsUnnamed = true := by
  -- without an effect, the names are changed as with one of which nothing is kept
  have hsame : (p.mapIdentsM (m := StateM Unit) fun id => pure (g id)) = pure (p.mapIdents g) := by
    obtain ⟨build, hself, hbuild⟩ := p.exists_build false
    have hmap := mapIdents_build (hbuild _ rfl).2 g
    have hchange := (hbuild _ rfl).2 (m := StateM Unit) fun id => pure (g id)
    rw [hself] at hmap hchange
    rw [hchange, List.mapM_pure, map_pure, hmap]
  have hkept := methodsUnnamed_mapIdentsM (σ := Unit) (fun id => pure (g id)) h ()
  rwa [hsame] at hkept

theorem methodsUnnamed_of_resolve {ie8 : Bool} {t : ScopeTree} (h : p.methodsUnnamed = true)
    (hresolve : resolve ie8 p = .ok (q, t)) : q.methodsUnnamed = true := by
  obtain ⟨_, _, _, _, _, symbols, _, rfl⟩ := runs_of_resolve hresolve
  exact methodsUnnamed_mapIdentsM bindNext h symbols

end Program

end Laconic
