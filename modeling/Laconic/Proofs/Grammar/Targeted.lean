import Laconic.Grammar.Program
import Laconic.Proofs.Grammar.Surroundings
import Laconic.Proofs.Tree.Wording

/-!
# Patterns, functions and expressions of a text

What the rules for patterns, functions, classes and expressions read keeps to every vocabulary
that accepts all functions, provided that what the rules one level below them read does
(`Grammar.Targeted`).  A jump in an expression is in a function of it, so nothing around the
expression matters to it.  What stands before the parameters of a method is read as the name of a
property, so the function of the method gets no name.
-/

namespace Laconic

open Vocabulary

variable {v : Vocabulary}

def TokenKind.StartsLoop (k : TokenKind) : Prop :=
  k = .word .for ∨ k = .word .while ∨ k = .word .do

/-! ## From expressions to patterns -/

section Patterns

variable {strict declares : Bool}

theorem Except.bind_eq_ok {ε α β : Type} {x : Except ε α} {f : α → Except ε β} {b : β}
    (h : x >>= f = .ok b) : ∃ a, x = .ok a ∧ f a = .ok b := by
  cases x with
  | error e => cases h
  | ok a => exact ⟨a, rfl, h⟩

mutual

theorem pat_of_toPattern :
    ∀ (e : Expr) {p : Pat}, v.expr e → e.toPattern strict declares = .ok p →
      v.pat p
  | e, p, he, h => by
    cases e with
    | ident id =>
      rw [Expr.toPattern] at h
      split at h
      · cases h
      · cases h
        trivial
    | member =>
      rw [Expr.toPattern] at h
      split at h
      · cases h
      · cases h
        exact he
    | array loc es =>
      rw [Expr.toPattern] at h
      obtain ⟨ps, hps, h⟩ := Except.bind_eq_ok h
      cases h
      exact patElements_of_elementsToPatterns es he hps
    | object loc ps =>
      rw [Expr.toPattern] at h
      obtain ⟨qs, hqs, h⟩ := Except.bind_eq_ok h
      cases h
      exact patProperties_of_propertiesToPatterns loc.start ps he.2 hqs
    | assign loc op q value =>
      cases op with
      | plain =>
        cases q with
        | expr e =>
          rw [Expr.toPattern] at h
          obtain ⟨q, hq, h⟩ := Except.bind_eq_ok h
          cases h
          exact ⟨pat_of_toPattern e he.1 hq, he.2⟩
        | _ =>
          cases h
          exact he
      | _ => cases h
    | _ => cases h

theorem patElements_of_elementsToPatterns :
    ∀ (es : List (Option Expr)) {ps : List (Option Pat)}, v.elements es →
      Expr.elementsToPatterns strict declares es = .ok ps → v.patElements ps
  | [], ps, _, h => by
    cases h
    trivial
  | none :: rest, ps, he, h => by
    rw [Expr.elementsToPatterns] at h
    obtain ⟨qs, hqs, h⟩ := Except.bind_eq_ok h
    cases h
    exact (patElements_of_elementsToPatterns rest he hqs : v.patElements qs)
  | some e :: rest, ps, he, h => by
    cases e with
    | spread loc e =>
      rw [Expr.elementsToPatterns] at h
      split at h
      · obtain ⟨q, hq, h⟩ := Except.bind_eq_ok h
        cases h
        exact ⟨(pat_of_toPattern e he.1 hq : v.pat q), trivial⟩
      · cases h
    | _ =>
      obtain ⟨q, hq, h⟩ := Except.bind_eq_ok h
      obtain ⟨qs, hqs, h⟩ := Except.bind_eq_ok h
      cases h
      exact ⟨pat_of_toPattern _ he.1 hq, patElements_of_elementsToPatterns rest he.2 hqs⟩

theorem patProperties_of_propertiesToPatterns (start : Position) :
    ∀ (ps : List Property) {qs : List PatProperty}, v.properties ps →
      Expr.propertiesToPatterns strict declares start ps = .ok qs →
        v.patProperties qs
  | [], qs, _, h => by
    cases h
    trivial
  | .spread loc e :: rest, qs, he, h => by
    rw [Expr.propertiesToPatterns] at h
    split at h
    · obtain ⟨q, hq, h⟩ := Except.bind_eq_ok h
      cases h
      exact ⟨pat_of_toPattern e he.1 hq, trivial⟩
    · cases h
  | .value loc key e :: rest, qs, he, h => by
    rw [Expr.propertiesToPatterns] at h
    obtain ⟨q, hq, h⟩ := Except.bind_eq_ok h
    obtain ⟨more, hmore, h⟩ := Except.bind_eq_ok h
    cases h
    exact ⟨he.1, pat_of_toPattern e he.2.1 hq,
      patProperties_of_propertiesToPatterns start rest he.2.2 hmore⟩
  | .getter .. :: _, _, _, h | .setter .. :: _, _, _, h | .method .. :: _, _, _, h => nomatch h

end

theorem pats_of_argumentsToParams :
    ∀ (es : List Expr) {ps : List Pat}, v.exprs es →
      Expr.argumentsToParams strict es = .ok ps → v.pats ps
  | [], ps, _, h => by
    cases h
    trivial
  | e :: rest, ps, he, h => by
    by_cases hspread : ∃ loc e', e = .spread loc e'
    · obtain ⟨loc, e', rfl⟩ := hspread
      rw [Expr.argumentsToParams] at h
      split at h
      · obtain ⟨q, hq, h⟩ := Except.bind_eq_ok h
        cases h
        exact ⟨(pat_of_toPattern e' he.1 hq : v.pat q), trivial⟩
      · cases h
    · rw [Expr.argumentsToParams] at h
      · obtain ⟨q, hq, h⟩ := Except.bind_eq_ok h
        obtain ⟨qs, hqs, h⟩ := Except.bind_eq_ok h
        cases h
        exact ⟨pat_of_toPattern e he.1 hq, pats_of_argumentsToParams rest he.2 hqs⟩
      · rintro loc e' rfl
        exact hspread ⟨loc, e', rfl⟩

end Patterns

/-! ## The rules one level below -/

open Parse

/-- What is read by the rules of a grammar keeps to a vocabulary that accepts all functions. -/
structure Grammar.Targeted (g : Grammar) (v : Vocabulary) : Prop where
  function : ∀ f, v.function f
  item : ∀ t, Yields t g.item (v.stmt t)
  statement : ∀ t, Yields t g.statement (v.stmt t)
  /-- A statement that starts as a loop is one. -/
  loop : ∀ s a s', s.token.kind.StartsLoop → g.statement s = .ok a s' → a.isLoop = true
  assign : ∀ t noIn, Yields t (g.assign noIn) v.expr
  binary : ∀ t least noIn, Yields t (g.binary least noIn) v.expr
  unary : ∀ t, Yields t g.unary v.expr
  leftHand : ∀ t, Yields t g.leftHand v.expr
  newExpr : ∀ t pure, Yields t (g.newExpr pure) v.expr
  bindingTarget : ∀ t, Yields t g.bindingTarget v.pat

namespace Parse

variable {t : Targets} {g : Grammar} {α : Type}

theorem Yields.ofPattern {result : Except Expr.PatternFault α} {P : α → Prop}
    (h : ∀ a, result = .ok a → P a) : Yields t (ofPattern result) P := by
  unfold Parse.ofPattern
  split
  · exact .pure (h _ rfl)
  all_goals exact .fail

theorem Yields.reversed {R : α → Prop} {step : List α → Parse (List α ⊕ List α)}
    (hstep : ∀ acc, (∀ a ∈ acc, R a) →
      Yields t (step acc) (Sum.elim (fun acc => ∀ a ∈ acc, R a) fun acc => ∀ a ∈ acc, R a)) :
    Yields t (Parse.repeatUntil step []) fun acc => ∀ a ∈ acc.reverse, R a :=
  (Yields.repeatUntil (I := fun acc => ∀ a ∈ acc, R a) hstep (List.forall_mem_nil R)).mono
    fun _ h a ha => h a (List.mem_reverse.mp ha)

section Rules

variable (hg : g.Targeted v) {calls nameRequired pure shorthand : Bool} {key : PropName}
variable {element : Parse Pat} {isAsync noIn : Bool} {start : Position}

include hg

/-! ## Property names and patterns -/

theorem yields_propName : Yields t (propName g) v.propName := by
  refine .skip fun s => ?_
  split
  · exact .skip fun _ => .pure trivial
  · exact .skip fun _ => .pure trivial
  · exact .skip fun _ => .pure trivial
  · exact .skip fun _ => (hg.assign t false).bind fun _ he => .skip fun _ => .pure he
  · exact .skip fun _ => .pure trivial
  · exact .skip fun _ => .pure trivial

theorem yields_bindingDefault {target : Pat} (h : v.pat target) :
    Yields t (bindingDefault g start target) v.pat :=
  .branch ((hg.assign t false).bind fun _ he => .skip fun _ => .pure ⟨h, he⟩) (.pure h)

theorem yields_restPattern : Yields t (restPattern g) v.pat :=
  .skip₂ fun _ _ => (hg.bindingTarget t).bind fun _ hp => .skip fun _ => .pure hp

section

variable (helement : Yields t element v.pat)

include helement

theorem yields_arrayBinding : Yields t (arrayBinding g element) v.pat := by
  refine .skip₂ fun _ _ => ?_
  refine (Yields.reversed (R := fun a => ∀ p, a = some p → v.pat p)
    fun acc hacc => ?_).bind fun elements h => .skip₂ fun _ _ => .pure ?_
  · have hcons : ∀ p, v.pat p →
        ∀ a ∈ some p :: acc, ∀ p, a = some p → v.pat p := by
      intro p hp
      refine List.forall_mem_cons.mpr ⟨?_, hacc⟩
      rintro _ ⟨⟩
      exact hp
    refine .branch (.pure hacc) ?_
    refine .branch (.pure ?_) ?_
    · exact List.forall_mem_cons.mpr ⟨nofun, hacc⟩
    refine .branch ?_ ?_
    · exact (yields_restPattern hg).bind fun p hp => .pure (hcons p hp)
    · exact helement.bind fun p hp => .skip fun _ => .check fun _ => .pure (hcons p hp)
  · exact patElements_iff.mpr fun p hp => h _ hp p rfl

theorem yields_bindingValue :
    Yields t (bindingValue g element start shorthand key) v.pat := by
  refine .branch helement ?_
  split
  · exact .check fun _ => yields_bindingDefault hg trivial
  · exact .unexpected

theorem yields_objectBinding : Yields t (objectBinding g element) v.pat := by
  refine .skip₂ fun _ _ => ?_
  refine (Yields.reversed (R := fun p => v.patProperties [p])
    fun acc hacc => ?_).bind fun properties h => .skip₂ fun _ _ => .pure ?_
  · refine .branch (.pure hacc) <| .skip fun _ => ?_
    refine .branch ?_ ?_
    · exact .skip₂ fun _ _ => .pure (List.forall_mem_cons.mpr ⟨⟨trivial, trivial⟩, hacc⟩)
    · exact .skip fun _ => (yields_propName hg).bind fun key hkey =>
        (yields_bindingValue hg helement).bind fun value hvalue => .skip₂ fun _ _ => .check fun _ =>
            .pure (List.forall_mem_cons.mpr ⟨⟨hkey, hvalue, trivial⟩, hacc⟩)
  · exact patProperties_iff.mpr h

end

theorem yields_bindingElementWith {target : Parse Pat}
    (htarget : Yields t target v.pat) :
    Yields t (bindingElementWith g target) v.pat :=
  .skip fun _ => htarget.bind fun _ hp => yields_bindingDefault hg hp

theorem yields_bindingTarget : Yields t (bindingTarget g) v.pat := by
  have helement := yields_bindingElementWith hg (hg.bindingTarget t)
  refine .branch (yields_arrayBinding hg helement) ?_
  refine .branch (yields_objectBinding hg helement) ?_
  exact .skip fun _ => .pure trivial

theorem yields_bindingElement : Yields t (bindingElement g) v.pat :=
  yields_bindingElementWith hg (yields_bindingTarget hg)

/-! ## Functions and classes -/

omit hg in
instance {span : Span} : Keeps (sourceText span) := by unfold sourceText; infer_instance

omit hg in
theorem yields_statementList {stop : TokenKind} {item : Parse Stmt} {P : Stmt → Prop}
    (hitem : Yields t item P) (hdirective : ∀ loc raw, P (.directive loc raw)) :
    Yields t (statementList stop item) fun list => ∀ s ∈ list, P s := by
  refine Yields.repeatUntil (I := fun x => ∀ s ∈ x.1, P s) ?_ (List.forall_mem_nil _)
  rintro ⟨acc, head⟩ hacc
  refine .branch (.pure ?_) ?_
  · exact fun s hs => hacc s (List.mem_reverse.mp hs)
  refine .skip fun _ => .check fun _ => ?_
  refine .branch ?_ ?_
  · refine .skip fun _ => hitem.bind fun s hs => .ite (fun _ => ?_) fun _ => ?_
    · refine .skip fun _ => .check fun _ => .pure ?_
      exact List.forall_mem_cons.mpr ⟨hdirective _ _, hacc⟩
    · exact .pure (List.forall_mem_cons.mpr ⟨hs, hacc⟩)
  · exact hitem.bind fun s hs => .pure (List.forall_mem_cons.mpr ⟨hs, hacc⟩)

theorem yields_block : Yields t (block g) (v.block t) := by
  exact .skip₂ fun _ _ => (Yields.manyWhile (hg.item t)).bind fun body hbody => .skip₂ fun _ _ =>
      .pure (stmts_iff.mpr hbody)

theorem yields_functionBody : Yields t (functionBody g) (v.block t) :=
  .skip₂ fun _ _ => (yields_statementList (hg.item t) fun _ _ => trivial).bind
    fun _ hbody => .skip₂ fun _ _ => .pure (stmts_iff.mpr hbody)

theorem yields_params : Yields t (params g) v.pats := by
  refine .skip fun _ => (Yields.reversed (R := v.pat)
    fun acc hacc => ?_).bind fun ps hps => .skip fun _ => .pure (pats_iff.mpr hps)
  refine .branch (.pure hacc) ?_
  refine .branch ?_ ?_
  · have hmore : ∀ p, v.pat p → ∀ a ∈ p :: acc, v.pat a :=
      fun p hp => List.forall_mem_cons.mpr ⟨hp, hacc⟩
    exact (yields_restPattern hg).bind fun p hp =>
      .branch (.skip₂ fun _ _ => .pure (hmore p hp)) (.pure (hmore p hp))
  · exact (yields_bindingElement hg).bind fun p hp => .skip fun _ =>
      .check fun _ => .pure (List.forall_mem_cons.mpr ⟨hp, hacc⟩)

theorem yields_functionRest {id : Option Ident} {isGenerator : Bool} :
    Yields t (functionRest g start id isAsync isGenerator) fun f => v.func f ∧ f.id = id := by
  have hparts : Yields {} (do return (← params g, ← functionBody g))
      fun x => v.pats x.1 ∧ v.block {} x.2 :=
    (yields_params hg).bind fun _ hps => (yields_functionBody hg).bind fun _ hb => .pure ⟨hps, hb⟩
  refine hparts.inFunction.bind fun x hx => .skip fun _ => .pure ?_
  obtain ⟨ps, ⟨bodyLoc, body⟩⟩ := x
  exact ⟨⟨hg.function _, hx.1, hx.2⟩, rfl⟩

theorem yields_functionDecl {nameOptional : Bool} :
    Yields t (functionDecl g isAsync nameOptional) v.func := by
  refine .skip fun _ => .check fun _ => ?_
  refine .skip₃ fun _ _ _ => ?_
  have hrest : ∀ {start id isGenerator}, Yields t
      (functionRest g start id isAsync isGenerator) v.func :=
    (yields_functionRest hg).mono fun _ => And.left
  exact .ite (fun _ => .skip fun _ => hrest) fun _ => .skip₂ fun _ _ => hrest

theorem yields_functionExpr : Yields t (functionExpr g isAsync) v.expr := by
  refine .skip fun _ => .check fun _ => ?_
  refine .skip₃ fun _ _ _ => ?_
  exact .skipEither fun _ => (yields_functionRest hg).bind fun _ hf => .pure hf.1

theorem yields_arrowRest {ps : List Pat} (hps : v.pats ps) :
    Yields t (arrowRest g start isAsync ps noIn) v.expr := by
  have hbody : Yields {} (do
        if ← isPunct .leftBrace then return ArrowBody.block (← functionBody g)
        else return ArrowBody.expr (← g.assign noIn))
      fun body => v.arrow ⟨⟨.first, .first, 0⟩, isAsync, ps, body⟩ := by
    refine .branch ?_ ?_
    · refine (yields_functionBody hg).bind fun b hb => .pure ?_
      obtain ⟨bodyLoc, body⟩ := b
      exact ⟨hps, hb⟩
    · exact (hg.assign {} noIn).bind fun _ he => .pure ⟨hps, he⟩
  refine .skip fun _ => .check fun _ => .skip fun _ => ?_
  refine hbody.inFunction.bind fun body hbody => .skip fun _ => .pure ?_
  cases body with
  | block b =>
    obtain ⟨bodyLoc, body⟩ := b
    exact hbody
  | expr e => exact hbody

omit hg in
instance : Keeps asyncModifier := by unfold asyncModifier; infer_instance

omit hg in
instance : Keeps accessorModifier := by unfold accessorModifier; infer_instance

omit hg in
instance : Keeps staticModifier := by unfold staticModifier; infer_instance

theorem yields_classMember :
    Yields t (classMember g) fun m => v.members [m] ∧ m.methodUnnamed = true := by
  refine .skip₃ fun _ _ _ => ?_
  refine .ite (fun _ => ?_) fun _ => ?_
  · have hcontext : Keeps (modifyContext ({ · with inFunction := false })) := .modify fun _ => rfl
    have hblock : Yields {} (do
        modifyContext ({ · with inFunction := false })
        block g) (v.block {}) :=
      .skip fun _ => yields_block hg
    refine hblock.inFunction.bind fun b hb => .skip fun _ => .pure ?_
    obtain ⟨bodyLoc, body⟩ := b
    exact ⟨⟨hb, trivial⟩, rfl⟩
  refine .skip₂ fun _ _ => ?_
  refine .skipEither fun _ => ?_
  refine (yields_propName hg).bind fun key hkey => .branch ?_ ?_
  · refine .check fun _ => .skip fun _ => ?_
    exact (yields_functionRest hg).bind fun f hf => .skip fun _ =>
      .pure ⟨⟨hkey, hf.1, trivial⟩, Option.isNone_iff_eq_none.mpr hf.2⟩
  · refine .check fun _ => .skip fun _ => ?_
    exact .either (P := v.optExpr)
      (fun _ => (hg.assign {} false).inFunction.map fun _ he => he) (fun _ => .pure trivial)
      fun _ he => .skip₂ fun _ _ => .pure ⟨⟨hkey, he, trivial⟩, rfl⟩

theorem yields_classTail : Yields t (classTail g start nameRequired) v.classDef := by
  have hname : ∀ {rest : Option Ident → Parse ClassDef} (b : Bool),
      (∀ id, Yields t (rest id) v.classDef) → Yields t
        (if b = true then some <$> bindingIdent >>= rest
          else if nameRequired = true then unexpected >>= rest else pure none >>= rest)
        v.classDef :=
    fun _ hrest => .ite (fun _ => .skip hrest) fun _ => .skipEither hrest
  refine .skip fun _ => hname _ fun _ => .skip fun _ => ?_
  refine .either (P := v.optExpr) (fun _ => (hg.leftHand t).map fun _ he => he)
    (fun _ => .pure trivial) fun _ hsuper => .skip fun _ => ?_
  refine (Yields.reversed (R := fun m => v.members [m] ∧ m.methodUnnamed = true)
    fun acc hacc => ?_).bind fun members h => .skip₂ fun _ _ => .pure ⟨fun _ => ?_, hsuper, ?_⟩
  rotate_left
  · exact List.all_eq_true.mpr fun m hm => (h m hm).2
  · exact members_iff.mpr fun m hm => (h m hm).1
  refine .branch (.pure hacc) ?_
  refine .branch (.pure hacc) ?_
  exact (yields_classMember hg).bind fun m hm => .pure (List.forall_mem_cons.mpr ⟨hm, hacc⟩)

theorem yields_classDef : Yields t (classDef g start nameRequired) v.classDef := by
  refine .skip₃ fun outer _ _ => ?_
  intro s c s' hs hrun
  obtain ⟨result, s₁, hobserve, hrun⟩ := bind_eq_ok hrun
  obtain ⟨_, s₂, hstrict, hrun⟩ := bind_eq_ok hrun
  unfold classDef.observing at hobserve
  split at hobserve
  · next htail =>
    cases hobserve
    cases hrun
    obtain ⟨hs₁, hc⟩ := yields_classTail hg s _ _ hs htail
    exact ⟨(Keeps.yields t _ _ _ hs₁ hstrict).1, hc⟩
  · cases hobserve
    cases hrun

/-! ## Expressions -/

omit hg in
theorem yields_commaSeparated {assign : Parse Expr} (hassign : Yields t assign v.expr) :
    Yields t (commaSeparated assign) v.expr := by
  refine hassign.bind fun first hfirst => .branch (.pure hfirst) ?_
  refine (Yields.manyWhile hassign).bind fun rest hrest => .pure ?_
  exact expr_mkSequence (List.forall_mem_cons.mpr ⟨hfirst, hrest⟩)

theorem yields_innerExpression : Yields t (innerExpression g) v.expr :=
  yields_commaSeparated (hg.assign t false)

theorem yields_spreadable : Yields t (spreadable g) v.expr := by
  refine .branch ?_ (hg.assign t false)
  exact .skip₂ fun _ _ => (hg.assign t false).bind fun _ he => .skip fun _ => .pure he

omit hg in
theorem yields_listUntil {close : Punct} {item : Parse α} {R : α → Prop}
    (hitem : Yields t item R) : Yields t (listUntil close item) fun list => ∀ a ∈ list, R a := by
  refine (Yields.reversed (R := R) fun acc hacc => ?_).bind fun _ h => .skip fun _ => .pure h
  refine .branch (.pure hacc) ?_
  exact hitem.bind fun a ha => .skip fun _ => .check fun _ =>
    .pure (List.forall_mem_cons.mpr ⟨ha, hacc⟩)

theorem yields_arguments : Yields t (arguments g) v.exprs :=
  .skip fun _ => (yields_listUntil (yields_spreadable hg)).mono
    fun _ => exprs_iff.mpr

theorem yields_template {tagged : Bool} :
    Yields t (template g tagged) fun x => v.exprs x.2.2 := by
  refine .skip fun _ => (Yields.repeatUntil
    (I := fun x : List Quasi × List Expr => ∀ e ∈ x.2, v.expr e)
    (P := fun x : List Quasi × List Expr => ∀ e ∈ x.2, v.expr e) ?_
    (List.forall_mem_nil _)).bind fun x hx => .skip fun _ => .pure ?_
  · rintro ⟨quasis, es⟩ hes
    refine .skip fun s => ?_
    dsimp only
    split
    · refine .skip fun _ => .check fun _ => .ite (fun _ => .pure hes) fun _ => ?_
      exact (yields_innerExpression hg).bind fun e he => .pure (List.forall_mem_cons.mpr ⟨he, hes⟩)
    · exact .unexpected
  · exact exprs_iff.mpr fun e he => hx e (List.mem_reverse.mp he)

theorem yields_arrayLiteral : Yields t (arrayLiteral g) v.expr := by
  refine .skip₂ fun _ _ => ?_
  refine (Yields.reversed (R := fun a => ∀ e, a = some e → v.expr e)
    fun acc hacc => ?_).bind fun elements h => .skip₂ fun _ _ => .pure ?_
  · refine .branch (.pure hacc) ?_
    refine .branch (.pure ?_) ?_
    · exact List.forall_mem_cons.mpr ⟨nofun, hacc⟩
    refine (yields_spreadable hg).bind fun e he => .skip fun _ =>
      .check fun _ => .pure (List.forall_mem_cons.mpr ⟨?_, hacc⟩)
    rintro _ ⟨⟩
    exact he
  · exact elements_iff.mpr fun e he => h _ he e rfl

theorem yields_propertyValue : Yields t (propertyValue g start shorthand key) v.expr := by
  refine .branch (hg.assign t false) ?_
  split
  · refine .check fun _ => .branch ?_ (.pure trivial)
    exact (hg.assign t false).bind fun _ he => .skip fun _ => .pure ⟨trivial, he⟩
  · exact .unexpected

theorem yields_objectProperty :
    Yields t (objectProperty g) fun p => v.properties [p] ∧ p.methodUnnamed = true := by
  refine .skip₂ fun _ _ => .ite (fun _ => ?_) fun _ => ?_
  · exact (hg.assign t false).bind fun _ he => .skip fun _ => .pure ⟨⟨he, trivial⟩, rfl⟩
  refine .skip₂ fun _ _ => ?_
  refine .skipEither fun accessor => .skip fun _ => ?_
  refine (yields_propName hg).bind fun key hkey => ?_
  dsimp only
  split
  · exact .failed
  · split
    · refine .skip fun _ => (yields_functionRest hg).bind fun f hf => .skip fun _ => .pure ?_
      split <;> exact ⟨⟨hkey, hf.1, trivial⟩, Option.isNone_iff_eq_none.mpr hf.2⟩
    · refine .branch ?_ ?_
      · exact .skip fun _ => (yields_functionRest hg).bind fun f hf => .skip fun _ =>
          .pure ⟨⟨hkey, hf.1, trivial⟩, Option.isNone_iff_eq_none.mpr hf.2⟩
      · exact (yields_propertyValue hg).bind fun _ he => .skip fun _ =>
          .pure ⟨⟨hkey, he, trivial⟩, rfl⟩

theorem yields_objectLiteral : Yields t (objectLiteral g) v.expr :=
  .skip₂ fun _ _ => (yields_listUntil (yields_objectProperty hg)).bind fun _ h => .skip fun _ =>
      .pure ⟨fun _ => List.all_eq_true.mpr fun p hp => (h p hp).2,
        properties_iff.mpr fun p hp => (h p hp).1⟩

theorem yields_parenthesized :
    Yields t (parenthesized g) fun p =>
      (∀ e ∈ p.items, v.expr e) ∧ ∀ r, p.rest = some r → v.pat r := by
  refine Yields.repeatUntil (I := fun p : Parenthesized =>
    (∀ e ∈ p.items, v.expr e) ∧ ∀ r, p.rest = some r → v.pat r) ?_
      ⟨List.forall_mem_nil _, nofun⟩
  intro p hp
  refine .branch (.pure hp) ?_
  refine .branch ?_ ?_
  · refine (yields_restPattern hg).bind fun r hr => .pure ⟨hp.1, ?_⟩
    rintro _ ⟨⟩
    exact hr
  refine (hg.assign t false).bind fun e he => ?_
  have hmore : ∀ a ∈ e :: p.items, v.expr a := List.forall_mem_cons.mpr ⟨he, hp.1⟩
  refine .branch (.pure ⟨hmore, hp.2⟩) ?_
  exact .skip₂ fun _ _ => .ite (fun _ => .pure ⟨hmore, hp.2⟩) fun _ => .pure ⟨hmore, hp.2⟩

omit hg in
instance : Keeps arrowFollows := by unfold arrowFollows; infer_instance

theorem yields_parenOrArrow : Yields t (parenOrArrow g) v.expr := by
  refine .skip₂ fun _ _ => ?_
  refine (yields_parenthesized hg).bind fun p hp => .skip fun _ => ?_
  have hitems : ∀ e ∈ p.items.reverse, v.expr e :=
    fun e he => hp.1 e (List.mem_reverse.mp he)
  refine .branch ?_ ?_
  · refine .skip fun _ => (Yields.ofPattern (P := v.pats) fun ps hps =>
      pats_of_argumentsToParams _ (exprs_iff.mpr hitems) hps).bind fun ps hps => ?_
    refine yields_arrowRest hg (pats_iff.mpr (List.forall_mem_append.mpr
      ⟨pats_iff.mp hps, fun r hr => hp.2 r (Option.mem_toList.mp hr)⟩))
  · refine .check fun _ => ?_
    have hsequence : v.expr (.mkSequence p.items.reverse) := expr_mkSequence hitems
    dsimp only
    split
    · exact .failed
    · split
      · exact .failed
      · exact .pure hsequence

theorem yields_asyncCallOrArrow : Yields t (asyncCallOrArrow g) v.expr := by
  refine .skip₂ fun _ _ => (yields_arguments hg).bind fun args hargs => ?_
  refine .branch ?_ ?_
  · exact .skip fun _ => (Yields.ofPattern (P := v.pats) fun ps hps =>
      pats_of_argumentsToParams _ hargs hps).bind fun ps hps => yields_arrowRest hg hps
  · exact .skip fun _ => .pure ⟨trivial, hargs⟩

omit hg in
instance : Keeps slashAsRegexp := by unfold slashAsRegexp; infer_instance

theorem yields_namePrimary : Yields t (namePrimary g) v.expr := by
  have hname : Yields t (do return .ident (← ident)) v.expr :=
    .skip fun _ => .pure trivial
  refine .branch ?_ hname
  refine .branch (yields_functionExpr hg) ?_
  exact .branch (yields_asyncCallOrArrow hg) hname

theorem yields_primary : Yields t (primary g) v.expr := by
  refine .skip₂ fun _ s => ?_
  split
  case h_9 =>
    refine .ite (fun _ => ?_) fun _ => .unexpected
    exact (yields_template hg).bind fun _ h => .pure h
  case h_10 => exact yields_parenOrArrow hg
  case h_11 => exact yields_arrayLiteral hg
  case h_12 => exact yields_objectLiteral hg
  case h_13 => exact yields_functionExpr hg
  case h_14 =>
    exact .skip fun _ => (yields_classDef hg).bind fun _ hc => .pure hc
  case h_15 => exact yields_namePrimary hg
  all_goals exact .skip fun _ => .pure trivial

omit hg in
theorem yields_memberName : Yields t memberName v.propName := by
  refine .skip fun s => ?_
  split
  · exact .skip fun _ => .pure trivial
  · exact .skip fun _ => .pure trivial

theorem yields_computedName : Yields t (computedName g) v.propName :=
  .skip fun _ => (yields_innerExpression hg).bind fun _ he => .skip fun _ => .pure he

theorem yields_callLink {tail : CallTail} (htail : v.expr tail.expr) :
    Yields t (callLink g start calls tail) fun next => ∀ x, next = some x → v.expr x.expr := by
  have hsome : ∀ x : CallTail, v.expr x.expr →
      ∀ y, some x = some y → v.expr y.expr := by
    rintro x hx _ ⟨⟩
    exact hx
  refine .skip fun s => ?_
  split
  · exact .skip fun _ => yields_memberName.bind fun _ hname =>
      .skip fun _ => .pure (hsome _ ⟨htail, hname⟩)
  · refine .ite (fun _ => .pure nofun) fun _ => .skip fun _ => ?_
    refine .branch ?_ ?_
    · exact (yields_arguments hg).bind fun _ hargs => .skip fun _ => .pure (hsome _ ⟨htail, hargs⟩)
    · exact .skip fun _ => .either (fun _ => yields_computedName hg)
        (fun _ => yields_memberName) fun _ hname => .skip fun _ => .pure (hsome _ ⟨htail, hname⟩)
  · exact (yields_computedName hg).bind fun _ hname => .skip fun _ => .pure (hsome _ ⟨htail, hname⟩)
  · refine .ite (fun _ => .pure nofun) fun _ => ?_
    exact (yields_arguments hg).bind fun _ hargs => .skip fun _ => .pure (hsome _ ⟨htail, hargs⟩)
  · refine .ite (fun _ => .pure nofun) fun _ => .ite (fun _ => .skip fun _ => .failed) fun _ => ?_
    exact (yields_template hg).bind fun _ hes => .skip fun _ => .pure (hsome _ ⟨htail, hes⟩)
  · exact .pure nofun

theorem yields_callTail {e : Expr} (he : v.expr e) :
    Yields t (callTail g start e calls pure) v.expr := by
  refine (Yields.repeatUntil (I := fun x : CallTail => v.expr x.expr)
    (P := fun x : CallTail => v.expr x.expr) (fun x hx => ?_) he).bind fun x hx => ?_
  · refine (yields_callLink hg hx).bind fun next hnext => ?_
    cases next with
    | some x => exact .pure (hnext x rfl)
    | none => exact .pure hx
  · exact .ite (fun _ => .skip fun _ => .pure hx) fun _ => .pure hx

theorem yields_newExpr : Yields t (newExpr g pure) v.expr := by
  refine .skip₃ fun _ _ _ => ?_
  refine .ite (fun _ => .skip₂ fun _ _ => .pure trivial)
    fun _ => ?_
  refine .skip₂ fun _ _ => .check fun _ => .skip fun _ => ?_
  refine .either (fun _ => hg.newExpr t false) (fun _ => yields_primary hg) fun callee hcallee => ?_
  refine .check fun _ => (yields_callTail hg hcallee).bind fun callee hcallee => ?_
  refine .skip fun _ => .check fun _ => .skip fun _ => ?_
  exact .either (fun _ => yields_arguments hg) (fun _ => .pure trivial) fun _ hargs =>
    .skip fun _ => .pure ⟨hcallee, hargs⟩

theorem yields_importExpr : Yields t (importExpr g) v.expr := by
  refine .skip₃ fun _ _ _ => ?_
  refine .ite (fun _ => ?_) fun _ => ?_
  · exact .skip₂ fun _ _ => .check fun _ => .skip fun _ => .pure trivial
  refine .skip fun _ => (hg.assign t false).bind fun source hsource => ?_
  have hrest : ∀ start options, v.optExpr options → Yields t (do
      expectPunct .rightParen
      return .importCall (← spanFrom start) source options) v.expr :=
    fun _ _ h => .skip₂ fun _ _ => .pure ⟨hsource, h⟩
  refine .branch (.branch ?_ ?_) ?_
  · exact .bind (P := v.optExpr) (.pure trivial) (hrest _)
  · exact (hg.assign t false).bind fun _ he => .skip fun _ =>
      .bind (P := v.optExpr) (.pure he) (hrest _)
  · exact .bind (P := v.optExpr) (.pure trivial) (hrest _)

omit hg in
theorem yields_superExpr : Yields t superExpr v.expr :=
  .skip₂ fun _ _ => .skip₂ fun _ _ => .ite (fun _ => .pure trivial) fun _ => .fail

omit hg in
instance : Keeps pureMark := by unfold pureMark; infer_instance

theorem yields_leftHand : Yields t (leftHand g) v.expr := by
  have hrest : ∀ start (pure : Expr → Bool) e, v.expr e → Yields t
      (if isArrow e then Pure.pure e else callTail g start e true (pure e)) v.expr :=
    fun _ _ _ he => .ite (fun _ => .pure he) fun _ => yields_callTail hg he
  refine .skip₃ fun _ _ _ => .skip₂ fun _ _ => ?_
  refine .ite (fun _ => (yields_newExpr hg).bind (hrest _ _)) fun _ => ?_
  refine .ite (fun _ => yields_superExpr.bind (hrest _ _)) fun _ => ?_
  exact .either (fun _ => yields_importExpr hg) (fun _ => yields_primary hg) (hrest _ _)

theorem yields_postfixExpr : Yields t (postfixExpr g) v.expr := by
  refine .skip fun _ => (yields_leftHand hg).bind fun e he => .skip fun _ => ?_
  split
  · refine .branch (.pure he) ?_
    exact .skip fun _ => .check fun _ => .skip₂ fun _ _ => .pure he
  · exact .pure he

theorem yields_unary : Yields t (unary g) v.expr := by
  refine .skip₃ fun _ _ _ => ?_
  split
  · refine .skip fun _ => (hg.unary t).bind fun e he => .skip fun _ => ?_
    refine .check fun _ => .skip fun _ => ?_
    exact .ite (fun _ => .skip fun _ => .failed) fun _ => .skip fun _ => .pure he
  · refine .skip₂ fun _ _ => (hg.unary t).bind fun e he => ?_
    exact .skip fun _ => .check fun _ => .skip fun _ => .pure he
  · refine .skip₂ fun _ _ => .ite (fun _ => ?_) fun _ => yields_postfixExpr hg
    exact .skip fun _ => (hg.unary t).bind fun e he => .skip fun _ => .pure he

omit hg in
instance : Keeps regexpAsSlash := by unfold regexpAsSlash; infer_instance

theorem yields_binary {least : Nat} : Yields t (binary g least noIn) v.expr := by
  refine .skip fun _ => (yields_unary hg).bind fun first hfirst =>
    .ite (fun _ => .pure hfirst) fun _ => ?_
  refine Yields.repeatUntil (I := v.expr) (fun left hleft => ?_) hfirst
  refine .skip₂ fun _ _ => ?_
  split
  · next op _ =>
    refine .ite (fun _ => .pure hleft) fun _ => .skip fun _ => ?_
    refine (hg.binary t _ noIn).bind fun right hright => .skip fun _ => .pure ?_
    cases op <;> exact ⟨hleft, hright⟩
  · exact .pure hleft

theorem yields_conditional : Yields t (conditional g noIn) v.expr := by
  refine .skip fun _ => (yields_binary hg).bind fun test htest => .skip fun _ => ?_
  refine .ite (fun _ => .pure htest) fun _ => .skip fun _ => ?_
  exact (hg.assign t false).bind fun _ hc => .skip fun _ =>
    (hg.assign t noIn).bind fun _ ha => .skip fun _ => .pure ⟨htest, hc, ha⟩

theorem yields_yieldExpr : Yields t (yieldExpr g noIn) v.expr := by
  refine .skip₃ fun _ _ _ => ?_
  refine .ite (fun _ => .skip fun _ => .pure trivial) fun _ => .skip fun _ => ?_
  refine .branch (.skip fun _ => .pure trivial) ?_
  exact (hg.assign t noIn).bind fun _ he => .skip fun _ => .pure he

omit hg in
instance : Keeps asyncArrowFollows := .bind fun _ => by split <;> infer_instance

theorem yields_nameArrow : Yields t (nameArrow g noIn) v.optExpr := by
  have harrow : ∀ start isAsync id, Yields t
      (do return some (← arrowRest g start isAsync [.ident id] noIn)) v.optExpr := by
    intro start isAsync id
    have hps : v.pats [.ident id] := ⟨trivial, trivial⟩
    exact (yields_arrowRest hg hps).bind fun _ he => .pure he
  have hasync : ∀ start, Yields t (do
      if ← isWord .async then
        if ← asyncArrowFollows then
          discard bump
          let id ← inContext ({ · with isAsync := true }) bindingIdent
          return some (← arrowRest g start true [.ident id] noIn)
      return none) v.optExpr := by
    intro start
    refine .branch ?_ (.pure trivial)
    refine .branch ?_ (.pure trivial)
    exact .skip₂ fun _ _ => harrow _ _ _
  refine .skip₂ fun _ _ => .ite (fun _ => ?_) fun _ => hasync _
  refine .branch ?_ (hasync _)
  exact .skip fun _ => harrow _ _ _

omit hg in
theorem yields_assignTarget {op : AssignOp} {left : Expr} (hleft : v.expr left) :
    Yields t (assignTarget start op left) v.pat := by
  refine .skip fun strict => ?_
  refine .ite (fun _ => ?_) fun _ => .ite (fun _ => .pure hleft) fun _ => .fail
  exact .ofPattern fun p hp => pat_of_toPattern left hleft hp

theorem yields_assign : Yields t (assign g noIn) v.expr := by
  refine .skip₃ fun _ _ _ => ?_
  refine .ite (fun _ => yields_yieldExpr hg) fun _ => (yields_nameArrow hg).bind
    fun arrow harrow => ?_
  cases arrow with
  | some e => exact .pure harrow
  | none =>
    refine (yields_conditional hg).bind fun left hleft => .ite (fun _ => .pure hleft) fun _ => ?_
    refine .skip fun _ => ?_
    split
    · exact (yields_assignTarget hleft).bind fun _ htarget => .skip fun _ =>
        (hg.assign t noIn).bind fun _ he => .skip fun _ => .pure ⟨htarget, he⟩
    · exact .pure hleft

theorem yields_expression : Yields t (expression g noIn) v.expr :=
  yields_commaSeparated (yields_assign hg)

end Rules

end Parse

end Laconic
