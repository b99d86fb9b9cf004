import Laconic.Proofs.Compress.Choices
import Laconic.Proofs.Semantics.Counting

/-!
# Lists of statements keep their meaning

The rules for the list of statements of a function open blocks, take the `else` after a jump
away, merge returns, put what follows a conditional return under the contrary condition and
join expressions and declarations.  Each of them keeps what the list does under every meaning,
and so do all of them together.
-/

namespace Laconic

open Behaviour Evaluating Stmt

namespace Meaning

section Lists

variable {p : Purity} {σ V : Type} {M : Meaning p σ V} {s : Stmt} {ss ss' : List Stmt}
  {b b' : Behaviour σ V} {loc : Span} {t : Expr} {before : List Stmt}

theorem does_self (h : keepsAllEffects p ss = true) : M.Does ss (M.list ss) := ⟨rfl, h⟩

theorem does_singleton (h : s.keepsEffects p = true) : M.Does [s] (M.stmt [] s) :=
  ⟨M.list_singleton s, Bool.and_eq_true_iff.mpr ⟨h, rfl⟩⟩

theorem Does.append (h : M.Does ss b) (h' : M.Does ss' b') : M.Does (ss ++ ss') (seq b b') := by
  refine ⟨by rw [M.list_append, h.1, h'.1], keepsAllEffects_iff.mpr fun x hx => ?_⟩
  rcases List.mem_append.mp hx with hx | hx
  · exact keepsAllEffects_iff.mp h.2 x hx
  · exact keepsAllEffects_iff.mp h'.2 x hx

/-! ## Blocks -/

mutual

theorem does_opened (s : Stmt) (h : s.keepsEffects p = true) : M.Does s.opened (M.stmt [] s) := by
  cases s with
  | block b =>
    obtain ⟨loc, body⟩ := b
    rw [opened]
    split
    · exact does_singleton h
    · exact does_openedList body h
  | empty => exact ⟨rfl, rfl⟩
  | _ => exact does_singleton h

theorem does_openedList : ∀ ss, keepsAllEffects p ss = true →
    M.Does (openedList ss) (M.list ss)
  | [], _ => ⟨rfl, rfl⟩
  | s :: ss, h =>
    have h := Bool.and_eq_true_iff.mp h
    (does_opened s h.1).append (does_openedList ss h.2)

end

/-! ## Returns -/

theorem seq_of_isJump (h : s.isJump = true) (b : Behaviour σ V) :
    seq (M.stmt [] s) b = M.stmt [] s := by
  cases s with
  | «return» loc e =>
    cases e with
    | none => exact ends_seq (c := .return M.undefined) nofun b
    | some e =>
      refine (seq_evaluated ..).trans (congrArg (evaluated (M.eval e)) (funext fun v => ?_))
      exact ends_seq (c := .return v) nofun b
  | throw loc e =>
    refine (seq_evaluated ..).trans (congrArg (evaluated (M.eval e)) (funext fun v => ?_))
    exact ends_seq (c := .throw v) nofun b
  | «break» loc label => exact ends_seq (c := .break _) nofun b
  | «continue» loc label => exact ends_seq (c := .continue _) nofun b
  | _ => cases h

theorem seq_of_endsInJump (h : s.endsInJump = true) (b : Behaviour σ V) :
    seq (M.stmt [] s) b = M.stmt [] s := by
  unfold endsInJump at h
  split at h
  · next loc body =>
    obtain ⟨last, hlast, hjump⟩ := (Option.any_eq_true ..).mp h
    obtain ⟨before, rfl⟩ := List.getLast?_eq_some_iff.mp hlast
    have hlist : M.stmt [] (.block ⟨loc, before ++ [last]⟩)
        = seq (M.list before) (M.stmt [] last) := by
      rw [← M.list_singleton last]
      exact M.list_append before [last]
    rw [hlist, Behaviour.seq_assoc, seq_of_isJump hjump]
  · exact seq_of_isJump h b

theorem does_if_cons {c a : Stmt} (hjump : c.endsInJump = true)
    (h : (Stmt.if loc t c (some a)).keepsEffects p = true) (ha : M.Does ss (M.stmt [] a)) :
    M.Does (.if loc t c none :: ss) (M.stmt [] (.if loc t c (some a))) := by
  obtain ⟨htc, -⟩ := Bool.and_eq_true_iff.mp h
  have hif : (Stmt.if loc t c none).keepsEffects p = true := Bool.and_eq_true_iff.mpr ⟨htc, rfl⟩
  refine ⟨?_, Bool.and_eq_true_iff.mpr ⟨hif, ha.2⟩⟩
  rw [M.list_cons, ha.1, M.stmt_if_none, M.seq_guarded, seq_of_endsInJump hjump]
  rfl

mutual

theorem does_withoutElse (s : Stmt) (h : s.keepsEffects p = true) :
    M.Does s.withoutElse (M.stmt [] s) := by
  cases s with
  | «if» loc t c a =>
    cases a with
    | none => exact does_singleton h
    | some a =>
      rw [withoutElse]
      split
      · next hjump => exact does_if_cons hjump h (does_elseBody a (Bool.and_eq_true_iff.mp h).2)
      · exact does_singleton h
  | _ => exact does_singleton h

theorem does_elseBody (s : Stmt) (h : s.keepsEffects p = true) :
    M.Does s.elseBody (M.stmt [] s) := by
  cases s with
  | block b =>
    obtain ⟨loc, body⟩ := b
    rw [elseBody]
    split
    · exact does_singleton h
    · exact does_withoutElseList body h
  | «if» loc t c a =>
    cases a with
    | none => exact does_singleton h
    | some a =>
      rw [elseBody]
      split
      · next hjump => exact does_if_cons hjump h (does_elseBody a (Bool.and_eq_true_iff.mp h).2)
      · exact does_singleton h
  | _ => exact does_singleton h

theorem does_withoutElseList : ∀ ss, keepsAllEffects p ss = true →
    M.Does (withoutElseList ss) (M.list ss)
  | [], _ => ⟨rfl, rfl⟩
  | s :: ss, h =>
    have h := Bool.and_eq_true_iff.mp h
    (does_withoutElse s h.1).append (does_withoutElseList ss h.2)

end

theorem stmt_return (loc : Span) (e : Expr) :
    M.stmt [] (.return loc (some e)) = evaluated (M.eval e) fun v => ends (.return v) := rfl

theorem conditionalReturn?_does {e : Expr} (heq : s.conditionalReturn? = some (loc, t, e))
    (h : s.keepsEffects p = true) :
    M.stmt [] s = M.guarded t (M.stmt [] (.return loc (some e))) ∧ p.keepsEffects t = true ∧
      p.keepsEffects e = true := by
  unfold conditionalReturn? at heq
  split at heq
  · cases heq
    refine ⟨rfl, ?_⟩
    simpa [keepsEffects, keepsOptEffects] using h
  · cases heq
    refine ⟨?_, ?_⟩
    · exact congrArg (M.guarded t) (M.list_singleton _)
    · simpa [keepsEffects, keepsAllEffects, keepsOptEffects] using h
  · cases heq

theorem does_mergeReturns (h : keepsAllEffects p ss = true) :
    M.Does (mergeReturns ss) (M.list ss) := by
  fun_induction mergeReturns ss with
  | case1 s rloc other rest loc t e heq ih =>
    obtain ⟨hs, hrest⟩ := Bool.and_eq_true_iff.mp h
    obtain ⟨hother, hrest⟩ := Bool.and_eq_true_iff.mp hrest
    obtain ⟨hstmt, ht, he⟩ := conditionalReturn?_does heq hs
    have hmerged : M.stmt [] (.return loc (some (.mkConditional t e other)))
        = seq (M.stmt [] s) (M.stmt [] (.return rloc (some other))) := by
      rw [hstmt, guarded, seq_evaluated, M.evaluated_test, stmt_return, Expr.mkConditional,
        M.eval_conditional, evaluated_bind]
      refine congrArg (evaluated (M.eval t)) (funext fun v => ?_)
      cases M.truthy v with
      | false => exact (skip_seq _).symm
      | true => exact (seq_of_isJump (s := .return loc (some e)) rfl _).symm
    obtain ⟨hlist, hkeeps⟩ := ih hrest
    refine ⟨?_, Bool.and_eq_true_iff.mpr ⟨?_, hkeeps⟩⟩
    · rw [M.list_cons, hlist, hmerged, Behaviour.seq_assoc]
      rfl
    · exact Bool.and_eq_true_iff.mpr ⟨Bool.and_eq_true_iff.mpr ⟨ht, he⟩, hother⟩
  | case2 s rloc other rest heq ih | case3 s rest _ ih =>
    obtain ⟨hs, hrest⟩ := Bool.and_eq_true_iff.mp h
    exact (does_singleton hs).append (ih hrest)
  | case4 => exact ⟨rfl, rfl⟩

/-! ## Commas and declarations -/

theorem does_foldl {f : List Stmt → Stmt → List Stmt}
    (hf : ∀ before s b, M.Does before.reverse b → s.keepsEffects p = true →
      M.Does (f before s).reverse (seq b (M.stmt [] s))) (ss before : List Stmt) (b : Behaviour σ V)
    (hbefore : M.Does before.reverse b) (h : keepsAllEffects p ss = true) :
    M.Does (ss.foldl f before).reverse (seq b (M.list ss)) := by
  induction ss generalizing before b with
  | nil =>
    rw [M.list_nil, seq_skip]
    exact hbefore
  | cons s ss ih =>
    obtain ⟨hs, hss⟩ := Bool.and_eq_true_iff.mp h
    rw [List.foldl_cons, M.list_cons, ← Behaviour.seq_assoc]
    exact ih _ _ (hf before s b hbefore hs) hss

theorem Does.of_reverse_cons (h : M.Does (s :: before).reverse b) :
    ∃ b', M.Does before.reverse b' ∧ b = seq b' (M.stmt [] s) ∧ s.keepsEffects p = true := by
  obtain ⟨hlist, hkeeps⟩ := h
  rw [List.reverse_cons] at hlist hkeeps
  have hkeeps := keepsAllEffects_iff.mp hkeeps
  refine ⟨M.list before.reverse, ⟨rfl, keepsAllEffects_iff.mpr fun x hx => ?_⟩, ?_, ?_⟩
  · exact hkeeps x (List.mem_append_left _ hx)
  · rw [← hlist, M.list_append, M.list_singleton]
  · exact hkeeps s (List.mem_append_right _ (List.mem_singleton_self s))

theorem Does.reverse_cons (h : M.Does before.reverse b) (hs : s.keepsEffects p = true) :
    M.Does (s :: before).reverse (seq b (M.stmt [] s)) := by
  rw [List.reverse_cons]
  exact h.append (does_singleton hs)

section Commas

variable {first e : Expr} (hfirst : p.keepsEffects first = true) (he : p.keepsEffects e = true)

include hfirst he

theorem keepsEffects_after : p.keepsEffects (e.after first) = true :=
  Purity.keepsEffects_mkSequence (List.cons_ne_nil _ _)
    (Bool.and_eq_true_iff.mpr ⟨hfirst, Bool.and_eq_true_iff.mpr ⟨he, rfl⟩⟩)

theorem eval_after : M.eval (e.after first) = (do let _ ← M.eval first; M.eval e) :=
  M.eval_mkSequence (List.cons_ne_nil _ _)
    (Bool.and_eq_true_iff.mpr ⟨hfirst, Bool.and_eq_true_iff.mpr ⟨he, rfl⟩⟩)

theorem evaluated_after (k : V → Behaviour σ V) (loc : Span) :
    evaluated (M.eval (e.after first)) k
      = seq (M.stmt [] (.expr loc first)) (evaluated (M.eval e) k) := by
  rw [eval_after hfirst he, evaluated_bind, evaluated_const]
  rfl

end Commas

theorem stmt_prepend? {limit : Nat} {first : Expr} {s' : Stmt} (loc : Span)
    (heq : s.prepend? limit first = some s') (hfirst : p.keepsEffects first = true)
    (hs : s.keepsEffects p = true) :
    M.stmt [] s' = seq (M.stmt [] (.expr loc first)) (M.stmt [] s) ∧ s'.keepsEffects p = true := by
  cases s with
  | expr loc' e =>
    simp only [prepend?] at heq
    split at heq
    · cases heq
      exact ⟨evaluated_after hfirst hs _ loc, keepsEffects_after hfirst hs⟩
    · cases heq
  | «return» loc' e =>
    cases e with
    | none => cases heq
    | some e =>
      cases heq
      exact ⟨evaluated_after hfirst hs _ loc, keepsEffects_after hfirst hs⟩
  | throw loc' e =>
    cases heq
    exact ⟨evaluated_after hfirst hs _ loc, keepsEffects_after hfirst hs⟩
  | «if» loc' t x y =>
    cases heq
    obtain ⟨htx, hy⟩ := Bool.and_eq_true_iff.mp hs
    obtain ⟨ht, hx⟩ := Bool.and_eq_true_iff.mp htx
    refine ⟨?_, ?_⟩
    · simp only [stmt, M.evaluated_test]
      exact evaluated_after hfirst ht _ loc
    · simp [keepsEffects, keepsEffects_after hfirst ht, hx, hy]
  | switch loc' e cases =>
    cases heq
    exact ⟨evaluated_after hfirst hs _ loc, keepsEffects_after hfirst hs⟩
  | «for» loc' init t update body =>
    cases init with
    | none =>
      cases heq
      refine ⟨?_, hfirst⟩
      simp only [stmt, forInit, evaluated_dropped, evaluated_pure]
      exact evaluated_const (M.eval first) _
    | decl d => cases heq
    | expr e =>
      cases heq
      refine ⟨?_, keepsEffects_after hfirst hs⟩
      simp only [stmt, forInit, evaluated_dropped]
      exact evaluated_after hfirst hs _ loc
  | _ => cases heq

theorem does_joinExpr (limit : Nat) (before : List Stmt) (s : Stmt) (b : Behaviour σ V)
    (h : M.Does before.reverse b) (hs : s.keepsEffects p = true) :
    M.Does (joinExpr limit before s).reverse (seq b (M.stmt [] s)) := by
  unfold joinExpr
  split
  · next loc first rest =>
    split
    · next s' heq =>
      obtain ⟨b', hrest, rfl, hfirst⟩ := h.of_reverse_cons
      obtain ⟨hstmt, hkeeps⟩ := stmt_prepend? loc heq hfirst hs
      rw [Behaviour.seq_assoc, ← hstmt]
      exact hrest.reverse_cons hkeeps
    · exact h.reverse_cons hs
  · exact h.reverse_cons hs

theorem does_joinExprs (limit : Nat) (h : keepsAllEffects p ss = true) :
    M.Does (joinExprs limit ss) (M.list ss) := by
  have hfold := does_foldl (does_joinExpr limit) ss [] skip ⟨M.list_nil, rfl⟩ h
  rw [skip_seq] at hfold
  exact hfold

theorem declarators_append (kind : VarKind) (ds ds' : List Declarator) :
    M.declarators kind (ds ++ ds') = (do M.declarators kind ds; M.declarators kind ds') := by
  induction ds with
  | nil => rfl
  | cons d ds ih => rw [List.cons_append, declarators, ih, declarators, bind_assoc]

theorem evaluated_declarators_append (d : VarDecl) (ds : List Declarator) (a : Behaviour σ V) :
    (evaluated (M.declarators d.kind (d.declarators ++ ds)) fun _ => a)
      = seq (M.stmt [] (.varDecl d)) (evaluated (M.declarators d.kind ds) fun _ => a) := by
  rw [declarators_append, evaluated_bind, evaluated_const]
  rfl

theorem forInit_of_vars? {init : ForInit} {vars : List Declarator} (h : init.vars? = some vars) :
    M.forInit init = M.declarators .var vars := by
  cases init with
  | none =>
    cases h
    rfl
  | decl d =>
    simp only [ForInit.vars?] at h
    split at h
    · next hkind =>
      cases h
      rw [forInit, beq_iff_eq.mp hkind]
    · cases h
  | expr e => cases h

theorem does_joinDecl (before : List Stmt) (s : Stmt) (b : Behaviour σ V)
    (h : M.Does before.reverse b) (hs : s.keepsEffects p = true) :
    M.Does (joinDecl before s).reverse (seq b (M.stmt [] s)) := by
  unfold joinDecl
  split
  · next d rest next =>
    split
    · next hkind =>
      obtain ⟨b', hrest, rfl, -⟩ := h.of_reverse_cons
      have hjoined : M.stmt [] (.varDecl
        { d with declarators := d.declarators ++ next.declarators })
          = seq (M.stmt [] (.varDecl d)) (M.stmt [] (.varDecl next)) := by
        refine (M.evaluated_declarators_append d next.declarators skip).trans ?_
        rw [beq_iff_eq.mp hkind]
        rfl
      rw [Behaviour.seq_assoc, ← hjoined]
      exact hrest.reverse_cons rfl
    · exact h.reverse_cons hs
  · next d rest loc init t update body =>
    split
    · next vars hvars hkind =>
      obtain ⟨b', hrest, rfl, -⟩ := h.of_reverse_cons
      have hjoined : M.stmt [] (.for loc (.decl { d with declarators := d.declarators ++ vars })
            t update body)
          = seq (M.stmt [] (.varDecl d)) (M.stmt [] (.for loc init t update body)) := by
        refine (M.evaluated_declarators_append d vars _).trans ?_
        rw [hkind, ← forInit_of_vars? hvars]
        rfl
      rw [Behaviour.seq_assoc, ← hjoined]
      exact hrest.reverse_cons rfl
    · exact h.reverse_cons hs
  · exact h.reverse_cons hs

theorem does_joinDecls (h : keepsAllEffects p ss = true) : M.Does (joinDecls ss) (M.list ss) := by
  have hfold := does_foldl does_joinDecl ss [] skip ⟨M.list_nil, rfl⟩ h
  rw [skip_seq] at hfold
  exact hfold

/-! ## The end of a function -/

/-- Statements as a body do what a function does, and their effects will all be kept. -/
def EndsAs (M : Meaning p σ V) (ss : List Stmt) (b : Behaviour σ V) : Prop :=
  M.body ss = b ∧ keepsAllEffects p ss = true

theorem Does.endsAs (h : M.Does ss b) : M.EndsAs ss (seq b (ends (.return M.undefined))) :=
  ⟨by rw [body, h.1], h.2⟩

mutual

theorem stmt_of_isBareReturn : ∀ s : Stmt, s.isBareReturn = true →
    M.stmt [] s = ends (.return M.undefined)
  | .return _ none, _ => rfl
  | .block ⟨_, body⟩, h => list_of_isOneBareReturn body h

theorem list_of_isOneBareReturn : ∀ ss, isOneBareReturn ss = true →
    M.list ss = ends (.return M.undefined)
  | s :: ss, h => by
    obtain ⟨hs, hss⟩ := Bool.and_eq_true_iff.mp h
    rw [List.isEmpty_iff.mp hss, list_singleton]
    exact stmt_of_isBareReturn s hs

end

theorem list_of_isFunction (h : ∀ s ∈ ss, s.isFunction = true) : M.list ss = skip := by
  induction ss with
  | nil => rfl
  | cons s ss ih =>
    have hs : M.stmt [] s = skip := by
      have hs := h s List.mem_cons_self
      cases s with
      | function f => rfl
      | _ => cases hs
    rw [list_cons, hs, skip_seq]
    exact ih fun x hx => h x (List.mem_cons_of_mem _ hx)

theorem endsAs_dropFinalReturn (h : keepsAllEffects p ss = true) :
    M.EndsAs (dropFinalReturn ss) (M.body ss) := by
  unfold dropFinalReturn
  split
  · next last before hbefore =>
    split
    · next hreturn =>
      have hss : ss = before.reverse ++ last :: (ss.reverse.takeWhile isFunction).reverse := by
        have hsplit := List.takeWhile_append_dropWhile (p := isFunction) (l := ss.reverse)
        rw [hbefore] at hsplit
        simpa using congrArg List.reverse hsplit.symm
      have hfunctions : ∀ s ∈ (ss.reverse.takeWhile isFunction).reverse,
          s.isFunction = true := fun s hs =>
        List.all_eq_true.mp List.all_takeWhile s (List.mem_reverse.mp hs)
      generalize (ss.reverse.takeWhile isFunction).reverse = functions at hss hfunctions
      subst hss
      have hlast : M.stmt [] last = ends (.return M.undefined) :=
        M.stmt_of_isBareReturn last hreturn
      refine ⟨?_, keepsAllEffects_iff.mpr fun x hx => ?_⟩
      · rw [body, body, list_append, list_append, list_cons, list_of_isFunction hfunctions, hlast,
          seq_skip, seq_skip, Behaviour.seq_assoc, ends_seq (c := .return M.undefined) (by simp)]
      · refine keepsAllEffects_iff.mp h x ?_
        rcases List.mem_append.mp hx with hx | hx
        · exact List.mem_append_left _ hx
        · exact List.mem_append_right _ (List.mem_cons_of_mem _ hx)
    · exact ⟨rfl, h⟩
  · exact ⟨rfl, h⟩

end Lists

section Function

variable {c : Compressor} {σ V : Type} {M : Meaning c.purity σ V}
variable {ss : List Stmt}

theorem does_joinSequences (h : keepsAllEffects c.purity ss = true) :
    M.Does (if c.options.sequences then c.joinSequences ss else ss) (M.list ss) := by
  split
  · exact does_joinExprs _ h
  · exact does_self h

/-- What comes after a return under a condition may run under the contrary condition. -/
theorem guardRest_endsAs (hdead : c.options.deadCode = false) {s : Stmt}
    (hs : s.keepsEffects c.purity = true) (hss : keepsAllEffects c.purity ss = true) :
    Gives (c.guardRest s ss) fun ss' => M.EndsAs ss' (seq (M.stmt [] s) (M.body ss)) := by
  have hself : M.EndsAs (s :: ss) (seq (M.stmt [] s) (M.body ss)) := by
    refine ⟨?_, Bool.and_eq_true_iff.mpr ⟨hs, hss⟩⟩
    rw [body, list_cons, Behaviour.seq_assoc, body]
  unfold Compressor.guardRest
  split
  · next loc t branch =>
    obtain ⟨ht, -⟩ : c.purity.keepsEffects t = true ∧ branch.keepsEffects c.purity = true := by
      simpa [keepsEffects, keepsOptEffects] using hs
    split
    · exact .pure hself
    · next hcond =>
      have hreturn : M.stmt [] branch = ends (.return M.undefined) := by
        refine M.stmt_of_isBareReturn branch ?_
        simp_all
      -- both ways the condition is evaluated first, and then the function ends or goes on
      rw [M.stmt_if_none, M.seq_guarded, hreturn, ends_seq (c := .return M.undefined) (by simp)]
      split
      · next hempty =>
        obtain rfl := List.isEmpty_iff.mp hempty
        have hends := (does_effectsOf (M := M) ht).endsAs
        rw [M.seq_guarded, skip_seq] at hends
        rw [body, list_nil, skip_seq]
        exact .pure hends
      · obtain ⟨hjoined, hkeeps⟩ := does_joinSequences (M := M) hss
        have hcontrary : seq (M.guarded (c.negate t) (M.list ss)) (ends (.return M.undefined))
            = evaluated (M.test t) fun x =>
                if x then ends (.return M.undefined) else M.body ss := by
          rw [guarded_negate, seq_evaluated]
          refine congrArg (evaluated (M.test t)) (funext fun x => ?_)
          cases x with
          | false => rfl
          | true => exact skip_seq _
        rw [← hcontrary, ← hjoined, ← M.stmt_blockOrSingle loc]
        exact (optimizeIf_does hdead loc (Purity.keepsEffects_negate c ht)
          (keepsEffects_blockOrSingle loc hkeeps)).bind fun a ha => .pure (ha _).endsAs
  · exact .pure hself

/-- Merging returns keeps what the body does. -/
theorem mergeIfReturns_endsAs (hdead : c.options.deadCode = false)
    (h : keepsAllEffects c.purity ss = true) :
    Gives (c.mergeIfReturns .function ss) fun ss' => M.EndsAs ss' (M.body ss) := by
  obtain ⟨helse, hkeeps⟩ := does_withoutElseList (M := M) ss h
  obtain ⟨hmerged, hkeeps⟩ := does_mergeReturns (M := M) hkeeps
  obtain ⟨hfinal, hkeeps⟩ := endsAs_dropFinalReturn (M := M) hkeeps
  have hbody : M.body (dropFinalReturn (mergeReturns (withoutElseList ss))) = M.body ss := by
    rw [hfinal, body, hmerged, helse, body]
  rw [← hbody]
  change Gives (List.foldrM c.guardRest [] _) _
  generalize dropFinalReturn (mergeReturns (withoutElseList ss)) = ss at hkeeps
  -- from the end of the body: what is left of the statements so far ends as they do
  induction ss with
  | nil => exact .pure ⟨rfl, rfl⟩
  | cons s ss ih =>
    obtain ⟨hs, hss⟩ := Bool.and_eq_true_iff.mp hkeeps
    rw [List.foldrM_cons]
    refine (ih hss).bind fun rest hrest => ?_
    have hguarded := guardRest_endsAs (M := M) hdead hs hrest.2
    rw [hrest.1] at hguarded
    rw [body, list_cons, Behaviour.seq_assoc]
    exact hguarded

theorem body_joined {b : Behaviour σ V} (h : M.EndsAs ss b) :
    M.body (if c.options.joinVars then
        joinDecls (if c.options.sequences then c.joinSequences ss else ss)
      else if c.options.sequences then c.joinSequences ss else ss) = b := by
  obtain ⟨hjoined, hkeeps⟩ := does_joinSequences (M := M) h.2
  rw [← h.1, body, body, ← hjoined]
  split
  · rw [(does_joinDecls (M := M) hkeeps).1]
  · rfl

/-- The rules for the statements of a function keep what it does: from every state it ends in
the same ways and in the same states. -/
theorem body_optimizeBody (M : Meaning c.purity σ V) (hdead : c.options.deadCode = false)
    (hcollapse : c.options.collapseVars = false) {ss : List Stmt}
    (h : keepsAllEffects c.purity ss = true) (progress : Progress) (s : σ)
    (outcome : Completion V) (s' : σ) :
    M.body ((c.optimizeBody .function ss).run progress).run.1 s outcome s'
      ↔ M.body ss s outcome s' := by
  obtain ⟨hopened, hkeeps⟩ := does_openedList (M := M) ss h
  have hbody : M.body (openedList ss) = M.body ss := by rw [body, body, hopened]
  have hall : Gives (c.optimizeBody .function ss) fun ss' => M.body ss' = M.body ss := by
    unfold Compressor.optimizeBody
    rw [hdead, hcollapse, ← hbody]
    refine Gives.bind (.pure rfl) fun opened hopened => ?_
    subst hopened
    dsimp only
    split
    · exact (mergeIfReturns_endsAs hdead hkeeps).bind fun _ h => .pure (body_joined h)
    · exact Gives.bind (.pure ⟨rfl, hkeeps⟩) fun _ h => .pure (body_joined h)
  rw [hall progress]

end Function

end Meaning

/-! ## Examples -/

/-- A compressor that neither removes dead code nor moves values. -/
def structural : Compressor where
  options := { deadCode := false, collapseVars := false }
  tree := {}
  toplevel := false
  ie8 := false
  fileName _ := ""

def callOf (name : String) : Expr := .call .nowhere false false (.ofName name .nowhere) []

/-- The body `if (f()) return; g();`. -/
def earlyReturn : List Stmt :=
  [.if .nowhere (callOf "f") (.return .nowhere none) none, .expr .nowhere (callOf "g")]

/-- It becomes `f() || g();`, which makes the same two calls. -/
theorem earlyReturn_same_outcome :
    keepsAllEffects structural.purity earlyReturn = true ∧
      (Meaning.counting structural.purity).body
        ((structural.optimizeBody .function earlyReturn).run {}).run.1 0 (.return false) 2 :=
  have hreturns : (Meaning.counting structural.purity).body earlyReturn 0 (.return false) 2 :=
    .inl ⟨2, .inl ⟨1, ⟨rfl, rfl⟩, .inl ⟨2, ⟨rfl, rfl⟩, rfl, rfl⟩⟩, rfl, rfl⟩
  ⟨by decide, (Meaning.body_optimizeBody _ rfl rfl (by decide) _ _ _ _).mpr hreturns⟩

/-- The body `if (this[f()]()) return;`, where the outer call is marked as having no effect. -/
def hiddenCall : List Stmt :=
  [.if .nowhere
    (.call .nowhere false true
      (.member .nowhere false (.this .nowhere) (.computed (callOf "f"))) [])
    (.return .nowhere none) none]

/-- Nothing stays of it, so that the call of `f` gets lost. -/
theorem hiddenCall_lost :
    (Meaning.counting structural.purity).body hiddenCall 0 (.return false) 1 ∧
      ¬ (Meaning.counting structural.purity).body
        ((structural.optimizeBody .function hiddenCall).run {}).run.1 0 (.return false) 1 := by
  refine ⟨.inl ⟨1, .inl ⟨1, ⟨rfl, rfl⟩, rfl, rfl⟩, rfl, rfl⟩, ?_⟩
  have hnothing : ((structural.optimizeBody .function hiddenCall).run {}).run.1 = [] := rfl
  rw [hnothing, Meaning.body, Meaning.list_nil, skip_seq]
  rintro ⟨-, h⟩
  cases h

end Laconic
