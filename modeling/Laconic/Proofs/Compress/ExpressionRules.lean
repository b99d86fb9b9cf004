import Laconic.Compress.Expression
import Laconic.Proofs.Tree.Keeping
import Mathlib.Data.Option.Basic

/-!
# The rules for expressions

Whatever vocabulary an expression keeps to, what takes its place keeps to it too.  A rule
drops parts of the expression, puts them in another order or makes literals, and the body
that takes the place of a call is that of a function in the program.
-/

namespace Laconic

open Compressor

namespace Vocabulary

variable {v : Vocabulary} {o : Option Expr} {b : Bool} {l r value x y : Expr} {n : Nat}
variable {e test : Expr} {es : List Expr} {inlining : List Nat} {k : PropName} {loc : Span}

theorem expr_of_optExpr (h : v.optExpr o) : ∀ e ∈ o, v.expr e := by
  rintro e rfl
  exact h

theorem forall_mem_toList (h : v.optExpr o) : ∀ e ∈ o.toList, v.expr e := by
  cases o with
  | none => nofun
  | some e => exact List.forall_mem_singleton.mpr h

/-! ## Values that are not used -/

theorem optExpr_sequence? (h : ∀ e ∈ es, v.expr e) : v.optExpr (Purity.sequence? es) := by
  unfold Purity.sequence?
  split
  · trivial
  · exact expr_mkSequence h

theorem optExpr_chooseEffects {dropped c a : Option Expr} (htest : v.expr test)
    (hdropped : v.optExpr dropped) (hc : v.optExpr c) (ha : v.optExpr a) :
    v.optExpr (Purity.chooseEffects test dropped c a) := by
  cases c with
  | none =>
    cases a with
    | none => exact hdropped
    | some a => exact ⟨htest, ha⟩
  | some c =>
    cases a with
    | none => exact ⟨htest, hc⟩
    | some a => exact ⟨htest, hc, ha⟩

theorem optExpr_ite {e : Option Expr} (h : v.optExpr e) : v.optExpr (if b then none else e) := by
  cases b with
  | true => trivial
  | false => exact h

theorem optExpr_orSelf (hes : ∀ e ∈ es, v.expr e) (he : v.expr e) :
    v.optExpr (if b then Purity.sequence? es else some e) := by
  cases b with
  | true => exact optExpr_sequence? hes
  | false => exact he

variable (p : Purity)

mutual

theorem optExpr_dropUnused (e : Expr) (h : v.expr e) : v.optExpr (p.dropUnused e) := by
  rw [Purity.dropUnused.eq_def]
  refine optExpr_ite ?_
  cases e with
  | sequence loc es => exact optExpr_sequence? (exprs_dropList es h)
  | binary loc op l r =>
    have hparts : v.optExpr (Purity.sequence?
      ((p.dropUnused l).toList ++ (p.dropUnused r).toList)) :=
      optExpr_sequence? (List.forall_mem_append.mpr
        ⟨forall_mem_toList (optExpr_dropUnused l h.1),
          forall_mem_toList (optExpr_dropUnused r h.2)⟩)
    cases op <;> first | exact h | exact hparts
  | logical loc op l r =>
    have hl := optExpr_dropUnused l h.1
    have hr := optExpr_dropUnused r h.2
    dsimp only
    split
    · exact hl
    · next heq => exact ⟨h.1, expr_of_optExpr hr _ heq⟩
  | conditional loc t c a =>
    exact optExpr_chooseEffects h.1 (optExpr_dropUnused t h.1) (optExpr_dropUnused c h.2.1)
      (optExpr_dropUnused a h.2.2)
  | unary loc op e =>
    dsimp only
    split
    · exact h
    · exact optExpr_dropUnused e h
  | template loc qs es => exact optExpr_sequence? (exprs_dropList es h)
  | array loc es =>
    dsimp only
    split
    · exact h
    · exact optExpr_sequence? (exprs_dropElements es h)
  | member loc optional o k =>
    dsimp only
    split
    · exact optExpr_sequence? (List.forall_mem_append.mpr
        ⟨forall_mem_toList (optExpr_dropUnused o h.1), exprs_dropKey k h.2⟩)
    · exact h
  | call loc optional pure callee es =>
    have hes := exprs_dropList es h.2
    cases callee with
    | member mloc mopt o k =>
      have ho := forall_mem_toList (optExpr_dropUnused o h.1.1)
      refine optExpr_orSelf (List.forall_mem_append.mpr ⟨?_, hes⟩) h
      split
      · exact ho
      · nofun
    | _ => exact optExpr_orSelf hes h
  | _ => exact h

theorem exprs_dropList : ∀ es : List Expr, v.exprs es → ∀ e ∈ p.dropList es, v.expr e
  | [], _ => nofun
  | e :: rest, h =>
    List.forall_mem_append.mpr
      ⟨forall_mem_toList (optExpr_dropUnused e h.1), exprs_dropList rest h.2⟩

theorem exprs_dropElements :
    ∀ es : List (Option Expr), v.elements es → ∀ e ∈ p.dropElements es, v.expr e
  | [], _ => nofun
  | none :: rest, h => exprs_dropElements rest h
  | some e :: rest, h =>
    List.forall_mem_append.mpr
      ⟨forall_mem_toList (optExpr_dropUnused e h.1), exprs_dropElements rest h.2⟩

theorem exprs_dropKey : ∀ k : PropName, v.propName k → ∀ e ∈ p.dropKey k, v.expr e
  | .computed e, h => forall_mem_toList (optExpr_dropUnused e h)
  | .ident _, _ | .privateName .., _ | .str _, _ | .num .., _ => nofun

end

/-! ## Conditions -/

variable (c : Compressor)

mutual

theorem expr_optimizeBool (e : Expr) (h : v.expr e) : v.expr (c.optimizeBool e) := by
  cases e with
  | unary loc op e =>
    cases e with
    | unary loc' op' e =>
      have he := expr_optimizeBool e h
      cases op <;> cases op' <;> first | exact h | exact he
    | _ => cases op <;> exact h
  | logical loc op l r =>
    rw [optimizeBool]
    split
    · exact h
    · exact ⟨expr_optimizeBool l h.1, expr_optimizeBool r h.2⟩
  | conditional loc t x y =>
    exact ⟨h.1, expr_optimizeBool x h.2.1, expr_optimizeBool y h.2.2⟩
  | sequence loc es => exact exprs_optimizeLast es h
  | _ => exact h

theorem exprs_optimizeLast : ∀ es : List Expr, v.exprs es → v.exprs (c.optimizeLast es)
  | [], h => h
  | [e], h => ⟨expr_optimizeBool e h.1, trivial⟩
  | _ :: e :: es, h => ⟨h.1, exprs_optimizeLast (e :: es) h.2⟩

end

variable {c}

theorem expr_condition (h : v.expr e) : v.expr (c.condition e) := by
  unfold condition
  split
  · exact expr_optimizeBool c e h
  · exact h

theorem expr_negate (h : v.expr e) : v.expr (c.negate e) := by
  unfold negate
  split
  · split <;> exact h
  · split
    · split <;> exact h
    · exact h
  · exact h

/-! ## Literals -/

theorem expr_of_isConstant (h : e.isConstant = true) : v.expr e := by
  induction e using Expr.isConstant.induct with
  | case6 loc op e ih =>
    rw [Expr.isConstant, Bool.and_eq_true] at h
    exact ih h.2
  | case7 => simp_all [Expr.isConstant]
  | _ => trivial

theorem expr_ofNumber (x : Float) (loc : Span) : v.expr (.ofNumber x loc) := by
  unfold Expr.ofNumber
  split
  · exact ⟨trivial, trivial⟩
  · split
    · split <;> exact ⟨trivial, trivial⟩
    · split <;> trivial

theorem expr_ofValue (value : Value) (loc : Span) (short : Bool) :
    v.expr (value.toExpr loc short) := by
  cases value with
  | num x => exact expr_ofNumber x loc
  | bool b => cases short <;> trivial
  | _ => trivial

theorem expr_relocate (h : v.expr e) (loc : Span) : v.expr (e.relocate loc) := by
  fun_induction Expr.relocate loc e with
  | case6 loc' op e ih => exact ih h
  | case7 => exact h
  | _ => trivial

mutual

theorem expr_ofJson (loc : Span) : ∀ json : Json, v.expr (.ofJson loc json)
  | .null | .bool _ | .str _ => trivial
  | .int n => expr_ofNumber (Number.ofInt n) loc
  | .float x => expr_ofNumber x loc
  | .arr items => elements_ofJsonItems loc items
  | .obj members => by
    have hmembers := properties_ofJsonMembers loc members
    refine ⟨fun _ => ?_, properties_iff.mpr ?_⟩
    · rw [List.all_eq_true, List.forall_mem_map]
      exact fun member hmember => (hmembers member (List.mem_mergeSort.mp hmember)).2
    · rw [List.forall_mem_map]
      exact fun member hmember => (hmembers member (List.mem_mergeSort.mp hmember)).1

theorem elements_ofJsonItems (loc : Span) :
    ∀ items : List Json, v.elements (Expr.ofJsonItems loc items)
  | [] => trivial
  | json :: rest => ⟨expr_ofJson loc json, elements_ofJsonItems loc rest⟩

theorem properties_ofJsonMembers (loc : Span) :
    ∀ (members : List (String × Json)), ∀ m ∈ Expr.ofJsonMembers loc members,
      v.properties [m.2] ∧ m.2.methodUnnamed = true
  | [] => nofun
  | (name, json) :: rest => by
    have hmore := properties_ofJsonMembers loc rest
    rw [Expr.ofJsonMembers]
    split
    · exact hmore
    · refine List.forall_mem_cons.mpr ⟨⟨⟨?_, expr_ofJson loc json, trivial⟩, rfl⟩, hmore⟩
      split <;> trivial

end

/-! ## Names of properties -/

theorem propName_unquoteAccess (h : v.propName k) : v.propName (c.unquoteAccess k) := by
  unfold unquoteAccess
  split
  · split
    · exact h
    · split
      · trivial
      · split
        · trivial
        · exact h
  · exact h

theorem propName_unquoteName (h : v.propName k) (loc : Span) (name : String) :
    v.propName (c.unquoteName k loc name) := by
  unfold unquoteName
  split
  · trivial
  · split
    · trivial
    · exact h

theorem propName_unquoteKey (h : v.propName k) : v.propName (c.unquoteKey k) := by
  unfold unquoteKey
  split
  · exact propName_unquoteName h _ _
  · split
    · exact h
    · exact propName_unquoteName h _ _
  · exact h

theorem properties_unquoteProperty {ps : List Property} (h : v.properties ps) :
    v.properties (ps.map c.unquoteProperty) := by
  induction ps with
  | nil => trivial
  | cons p rest ih =>
    cases p with
    | spread loc e => exact ⟨h.1, ih h.2⟩
    | _ => exact ⟨propName_unquoteKey h.1, h.2.1, ih h.2.2⟩

theorem methodUnnamed_unquoteProperty (p : Property) :
    (c.unquoteProperty p).methodUnnamed = p.methodUnnamed := by
  cases p <;> rfl

/-! ## Rules -/

/-- What a rule says about an expression keeps to a vocabulary. -/
def verdict (v : Vocabulary) : Compressor.Verdict → Prop
  | .replace e | .change e => v.expr e

theorem optExpr_givenValue? (name : String) (loc : Span) : v.optExpr (c.givenValue? name loc) := by
  unfold givenValue?
  cases c.options.globals.lookup name with
  | none => trivial
  | some json => exact expr_ofJson loc json

theorem optExpr_bind {α : Type} {o : Option α} {f : α → Option Expr}
    (h : ∀ a, o = some a → v.optExpr (f a)) : v.optExpr (o >>= f) := by
  cases o with
  | none => trivial
  | some a => exact h a rfl

theorem optExpr_guard {P : Prop} [Decidable P] {f : Unit → Option Expr}
    (h : P → v.optExpr (f ())) : v.optExpr (guard P >>= f) := by
  show v.optExpr ((if P then some () else none) >>= f)
  split
  · next hP => exact h hP
  · trivial

theorem optExpr_optimizeIdent? (id : Ident) : v.optExpr (c.optimizeIdent? id) := by
  unfold optimizeIdent?
  refine optExpr_bind fun s _ => ?_
  split
  · split
    · next hgiven => exact expr_of_optExpr (optExpr_givenValue? id.name id.loc) _ hgiven
    · refine optExpr_guard fun _ => ?_
      split
      · trivial
      · exact expr_ofNumber _ _
      · trivial
  · refine optExpr_guard fun _ => optExpr_bind fun value _ => optExpr_guard fun hconstant => ?_
    exact optExpr_guard fun _ => expr_relocate (expr_of_isConstant hconstant) id.loc

theorem optExpr_givenMember? (e object : Expr) : v.optExpr (c.givenMember? e object) := by
  unfold givenMember?
  refine optExpr_bind fun path _ => optExpr_bind fun value hgiven => optExpr_guard fun _ => ?_
  exact expr_of_optExpr (optExpr_givenValue? path e.loc) value hgiven

theorem optExpr_typeofUndefined? {op : BinaryOp} (hl : v.expr l) (hr : v.expr r) :
    v.optExpr (c.typeofUndefined? loc op l r) := by
  unfold typeofUndefined?
  dsimp only
  repeat' split
  all_goals
    try cases ‹Expr.unary _ _ _ = _›
    trivial

theorem verdict_optimizeUnary {op : UnaryOp} (h : v.expr e) :
    v.verdict (c.optimizeUnary loc op e) := by
  have hkept := optExpr_dropUnused c.purity e h
  unfold optimizeUnary
  split
  · split
    · split
      · split
        · exact h
        · exact expr_condition h
      · exact expr_condition h
    · exact expr_condition h
  · split
    · split
      · trivial
      · next kept heq => exact (expr_of_optExpr hkept kept heq : v.expr kept)
    · exact h
  · exact h

theorem verdict_optimizeLogical {op : LogicalOp} (hl : v.expr l) (hr : v.expr r) :
    v.verdict (c.optimizeLogical loc op l r) := by
  unfold optimizeLogical
  split
  · exact ⟨hl, hr⟩
  · split
    · exact ⟨hl, hr⟩
    · exact hl
    · split
      · exact ⟨hl, hr⟩
      · exact hr

theorem expr_unnegated (ht : v.expr test) (hx : v.expr x) (hy : v.expr y) :
    v.expr (unnegated test x y).1 ∧ v.expr (unnegated test x y).2.1 ∧
      v.expr (unnegated test x y).2.2 := by
  unfold unnegated
  split
  · exact ⟨ht, hy, hx⟩
  · exact ⟨ht, hx, hy⟩

theorem verdict_optimizeConditional (ht : v.expr test) (hx : v.expr x) (hy : v.expr y) :
    v.verdict (c.optimizeConditional loc test x y) := by
  unfold optimizeConditional
  split
  · exact ⟨ht, hx, hy⟩
  · dsimp only
    split
    · split
      · exact hx
      · exact hy
    · obtain ⟨ht', hx', hy'⟩ := expr_unnegated (expr_condition (c := c) ht) hx hy
      split
      · exact ht'
      · exact ht'
      · exact ⟨ht', hx', hy'⟩

theorem verdict_optimizeSequence (h : v.exprs es) : v.verdict (c.optimizeSequence loc es) := by
  unfold optimizeSequence
  split
  · exact h
  · split
    · exact h
    · next last hlast =>
      rw [exprs_iff] at h
      have hkept : ∀ e ∈ es.dropLast.filterMap c.purity.dropUnused, v.expr e := by
        intro e he
        obtain ⟨x, hx, hdrop⟩ := List.mem_filterMap.mp he
        have hmem : x ∈ es := List.dropLast_subset es hx
        exact expr_of_optExpr (optExpr_dropUnused c.purity x (h x hmem)) e hdrop
      refine expr_mkSequence (List.forall_mem_append.mpr ⟨?_, ?_⟩)
      · split
        · exact List.forall_mem_singleton.mpr trivial
        · exact hkept
      · exact List.forall_mem_singleton.mpr (h last (List.mem_of_getLast? hlast))

theorem verdict_optimizeShape (h : v.expr e) : v.verdict (c.optimizeShape e) := by
  unfold optimizeShape
  split
  · split
    · trivial
    · exact h
  · next id =>
    split
    · next heq => exact expr_of_optExpr (optExpr_optimizeIdent? id) _ heq
    · exact h
  · next o p =>
    split
    · next heq => exact expr_of_optExpr (optExpr_givenMember? _ _) _ heq
    · exact ⟨h.1, propName_unquoteAccess h.2⟩
  · split
    · refine ⟨fun hv => ?_, properties_unquoteProperty h.2⟩
      rw [List.all_map, ← h.1 hv]
      exact congrArg (List.all _) (funext methodUnnamed_unquoteProperty)
    · exact h
  · exact verdict_optimizeUnary h
  · split
    · next heq =>
      split at heq
      · exact expr_of_optExpr (optExpr_typeofUndefined? h.1 h.2) _ heq
      · cases heq
    · exact h
  · exact verdict_optimizeLogical h.1 h.2
  · exact verdict_optimizeConditional h.1 h.2.1 h.2.2
  · exact verdict_optimizeSequence h
  · exact ⟨⟨h.1.1, propName_unquoteAccess h.1.2⟩, h.2⟩
  · exact h

theorem gives_evaluated? (e : Expr) : Gives (c.evaluated? e) v.optExpr := by
  unfold evaluated?
  refine .ite (fun _ => .pure trivial) fun _ => ?_
  cases e.evaluate c.knowledge with
  | ok value =>
    refine .pure ?_
    split
    · exact expr_ofValue value _ _
    · trivial
  | error stuck =>
    cases stuck with
    | notConstant => exact .pure trivial
    | throws fault => exact Gives.bind .unknown fun _ _ => .pure trivial

theorem gives_concludeExpr {x : Compressor.Verdict} (h : v.verdict x) :
    Gives (c.concludeExpr x) (·.All v.expr) := by
  cases x with
  | replace e => exact .pure h
  | change e =>
    rw [concludeExpr]
    refine .ite (fun _ => ?_) fun _ => .pure h
    refine (gives_evaluated? (v := v) e).bind fun folded hfolded => .pure ?_
    cases folded with
    | none => exact h
    | some folded => exact hfolded

/-! ## Bodies in the place of calls -/

theorem exprs_bodyParts {t : Targets} {body : List Stmt} (h : v.stmts t body)
    (hparts : bodyParts loc body = some es) : v.exprs es := by
  fun_induction bodyParts loc body generalizing es with
  | case1 =>
    cases hparts
    exact ⟨trivial, trivial⟩
  | case2 loc' rest ih => exact ih h.2 hparts
  | case3 loc' e rest ih =>
    obtain ⟨rest', hrest, rfl⟩ := Option.map_eq_some_iff.mp hparts
    exact ⟨h.1, ih h.2 hrest⟩
  | case4 loc' value =>
    cases hparts
    cases value with
    | none => exact ⟨trivial, trivial⟩
    | some value => exact h
  | case5 => cases hparts

/-- The functions that names are known to stand for have bodies that keep to a vocabulary. -/
def Fixed (v : Vocabulary) (tree : ScopeTree) : Prop :=
  ∀ (n : Nat) (s : Symbol) (f : Func), tree.symbols[n]? = some s →
    s.fixed = some (.function f) → v.stmts {} f.body.body

theorem fixed_of_fixedFunction? {s : Symbol} {f : Func}
    (h : fixedFunction? s = some f) : s.fixed = some (.function f) := by
  unfold fixedFunction? at h
  split at h
  · next heq =>
    cases h
    exact heq
  · cases h

theorem expr_of_inlineCall? (hfixed : v.Fixed c.tree) {callee : Ident}
    (h : c.inlineCall? inlining loc callee = some (n, value)) : v.expr value := by
  unfold inlineCall? at h
  simp only [bind, Option.bind_eq_some_iff] at h
  obtain ⟨id, _, _, _, s, hs, _, _, ⟨_, _, _, _, _, ⟨_, body⟩⟩, hf, _, _, scope, _, _,
    _, _, _, parts,
    hparts, heq⟩ := h
  have hbody := hfixed id s _ hs (fixed_of_fixedFunction? hf)
  cases heq
  exact expr_mkSequence (exprs_iff.mp (exprs_bodyParts hbody hparts))

theorem expr_of_expansion? (hfixed : c.options.reduceVars = true → v.Fixed c.tree)
    (h : c.expansion? inlining e = some (n, value)) : v.expr value := by
  unfold expansion? at h
  split at h
  · split at h
    · next hoptions => exact expr_of_inlineCall? (hfixed (Bool.and_eq_true_iff.mp hoptions).2) h
    · cases h
  · cases h

theorem gives_optimizeExpr (hfixed : c.options.reduceVars = true → v.Fixed c.tree)
    {expand : Nat → Expr → Compressing Expr}
    (hexpand : ∀ n value, v.expr value → Gives (expand n value) v.expr) (h : v.expr e) :
    Gives (c.optimizeExpr inlining expand e) (·.All v.expr) := by
  unfold optimizeExpr
  split
  · refine .ite (fun _ => .pure trivial) fun _ => ?_
    split
    · next n value hvalue =>
      exact (hexpand n value (expr_of_expansion? hfixed hvalue)).bind fun _ h => .pure h
    · exact gives_concludeExpr h
  · exact gives_concludeExpr (verdict_optimizeShape h)

end Vocabulary

end Laconic
