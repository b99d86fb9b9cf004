import Laconic.Proofs.Semantics.Meaning

/-!
# Dropping values keeps effects

Where the value of an expression is not used, `Purity.dropUnused` keeps the parts that have
effects.  Under every meaning what is kept does what the whole expression does, with two
exceptions: of the callee of a call that has no effect of its own only the object of an access
is looked at, and what an optional access or call may leave out is evaluated always.
`Purity.keepsEffects` says that neither occurs.
-/

namespace Laconic

open Purity

/-! ## The exceptions -/

namespace Purity

mutual

/-- Whether all effects of an expression are kept where its value is dropped, and also those
of what it may become. -/
def keepsEffects (p : Purity) : Expr → Bool
  | .unary _ _ e => keepsEffects p e
  | .binary _ _ l r | .logical _ _ l r => keepsEffects p l && keepsEffects p r
  | .conditional _ t c a => keepsEffects p t && keepsEffects p c && keepsEffects p a
  | .sequence _ es => !es.isEmpty && keepsAllEffects p es
  | .template _ _ es => keepsAllEffects p es
  | .array _ es => keepsElementEffects p es
  | .member _ optional o k =>
    !p.pureGetters || !optional && keepsEffects p o && keepsKeyEffects p k
  | .call _ optional pure (.member mloc moptional o k) es =>
    let callee := Expr.member mloc moptional o k
    !p.isPureCall callee pure || es.any (·.isSpread)
      || !optional && (!p.effects true callee
        || !moptional && !p.keyEffects k && keepsEffects p o) && keepsAllEffects p es
  | .call _ optional pure callee es =>
    !p.isPureCall callee pure || es.any (·.isSpread)
      || !optional && !p.effects true callee && keepsAllEffects p es
  | _ => true

def keepsAllEffects (p : Purity) : List Expr → Bool
  | [] => true
  | e :: es => keepsEffects p e && keepsAllEffects p es

def keepsElementEffects (p : Purity) : List (Option Expr) → Bool
  | [] => true
  | none :: es => keepsElementEffects p es
  | some e :: es => keepsEffects p e && keepsElementEffects p es

def keepsKeyEffects (p : Purity) : PropName → Bool
  | .computed e => keepsEffects p e
  | _ => true

end

theorem keepsAllEffects_iff {p : Purity} {es : List Expr} :
    p.keepsAllEffects es = true ↔ ∀ e ∈ es, p.keepsEffects e = true := by
  induction es with
  | nil => simp [keepsAllEffects]
  | cons e es ih => simp [keepsAllEffects, ih]

end Purity

/-! ## Sequences -/

namespace Evaluating

variable {σ V : Type} (eval : Expr → Evaluating σ V V) (undefined : V)

theorem all_append (es es' : List Expr) :
    all eval (es ++ es') = (do all eval es; all eval es') := by
  induction es with
  | nil => simp [all]
  | cons e es ih => simp [all, ih]

theorem last_cons_cons (e e' : Expr) (es : List Expr) : last eval undefined (e :: e' :: es)
    = (do let _ ← eval e; last eval undefined (e' :: es)) := rfl

theorem last_append (es : List Expr) {es' : List Expr} (h : es' ≠ []) :
    last eval undefined (es ++ es') = (do all eval es; last eval undefined es') := by
  induction es with
  | nil => simp [all]
  | cons e es ih =>
    obtain ⟨x, xs, hxs⟩ := List.exists_cons_of_ne_nil (List.append_ne_nil_of_right_ne_nil es h)
    rw [List.cons_append, hxs, last_cons_cons, ← hxs, ih]
    simp [all]

theorem dropped_last {es : List Expr} (h : es ≠ []) :
    (last eval undefined es).dropped = all eval es := by
  induction es with
  | nil => exact absurd rfl h
  | cons e es ih =>
    cases es with
    | nil => rfl
    | cons e' es =>
      have hih : (last eval undefined (e' :: es)).dropped = all eval (e' :: es) := ih nofun
      rw [last_cons_cons, all, ← hih, dropped, dropped, bind_assoc]

theorem dropped_ite (m : Evaluating σ V V) (c : V → Bool) (a b : V → Evaluating σ V V) :
    Evaluating.dropped (do let v ← m; if c v then a v else b v)
      = (do let v ← m; if c v then (a v).dropped else (b v).dropped) := by
  rw [dropped, bind_assoc]
  congr
  funext v
  split <;> rfl

end Evaluating

namespace Purity

variable {p : Purity} {e : Expr} {es : List Expr}

theorem items_ne_nil (h : p.keepsEffects e = true) : e.items ≠ [] := by
  cases e with
  | sequence loc es =>
    rintro rfl
    cases h
  | _ => exact List.cons_ne_nil _ _

theorem flatMap_items_ne_nil (hne : es ≠ []) (h : p.keepsAllEffects es = true) :
    es.flatMap Expr.items ≠ [] := by
  obtain ⟨e, es, rfl⟩ := List.exists_cons_of_ne_nil hne
  exact List.append_ne_nil_of_left_ne_nil (items_ne_nil (Bool.and_eq_true_iff.mp h).1) _

theorem keepsEffects_mkSequence (hne : es ≠ []) (h : p.keepsAllEffects es = true) :
    p.keepsEffects (.mkSequence es) = true := by
  have hitems : ∀ e ∈ es.flatMap Expr.items, p.keepsEffects e = true := by
    intro x hx
    obtain ⟨e, he, hx⟩ := List.mem_flatMap.mp hx
    have hkeeps := keepsAllEffects_iff.mp h e he
    cases e with
    | sequence loc es => exact keepsAllEffects_iff.mp (Bool.and_eq_true_iff.mp hkeeps).2 x hx
    | _ =>
      obtain rfl := List.mem_singleton.mp hx
      exact hkeeps
  unfold Expr.mkSequence
  split
  · next heq => exact absurd heq (flatMap_items_ne_nil hne h)
  · next e heq => exact hitems e (by rw [heq]; exact List.mem_singleton_self _)
  · next e rest _ heq =>
    rw [heq] at hitems
    exact Bool.and_eq_true_iff.mpr ⟨rfl, keepsAllEffects_iff.mpr hitems⟩

end Purity

namespace Meaning

variable {p : Purity} {σ V : Type} (M : Meaning p σ V) {e : Expr} {es : List Expr}

open Evaluating

theorem last_items (h : p.keepsEffects e = true) : last M.eval M.undefined e.items = M.eval e := by
  cases e with
  | sequence loc es =>
    refine (M.eval_sequence loc es ?_).symm
    rintro rfl
    cases h
  | _ => rfl

theorem last_flatMap_items (hne : es ≠ []) (h : p.keepsAllEffects es = true) :
    last M.eval M.undefined (es.flatMap Expr.items) = last M.eval M.undefined es := by
  induction es with
  | nil => exact absurd rfl hne
  | cons e es ih =>
    obtain ⟨he, hes⟩ := Bool.and_eq_true_iff.mp h
    cases es with
    | nil => rw [List.flatMap_singleton, M.last_items he, last]
    | cons e' es =>
      have hitems := dropped_last M.eval M.undefined (items_ne_nil he)
      have hrest := flatMap_items_ne_nil (List.cons_ne_nil e' es) hes
      rw [List.flatMap_cons, last_append _ _ _ hrest, ih (List.cons_ne_nil e' es) hes,
        last_cons_cons, ← hitems, M.last_items he, dropped, bind_assoc]
      simp

theorem eval_mkSequence (hne : es ≠ []) (h : p.keepsAllEffects es = true) :
    M.eval (.mkSequence es) = last M.eval M.undefined es := by
  rw [← M.last_flatMap_items hne h]
  unfold Expr.mkSequence
  split
  · next heq => exact absurd heq (flatMap_items_ne_nil hne h)
  · next e heq => rw [heq, last]
  · next e rest _ heq => rw [heq, M.eval_sequence _ _ (List.cons_ne_nil _ _)]

/-! ## Choices -/

def decides : LogicalOp → V → Bool
  | .and, v => !M.truthy v
  | .or, v => M.truthy v
  | .nullish, v => !M.nullish v

theorem eval_logical (loc : Span) (op : LogicalOp) (l r : Expr) :
    M.eval (.logical loc op l r) = (do
      let v ← M.eval l
      if M.decides op v then return v else M.eval r) := by
  cases op with
  | and =>
    rw [M.eval_and]
    congr
    funext v
    cases h : M.truthy v <;> simp [decides, h]
  | or => rw [M.eval_or]; rfl
  | nullish =>
    rw [M.eval_nullish]
    congr
    funext v
    cases h : M.nullish v <;> simp [decides, h]

theorem dropped_logical (loc : Span) (op : LogicalOp) (l r : Expr) :
    (M.eval (.logical loc op l r)).dropped = (do
      let v ← M.eval l
      if M.decides op v then return () else (M.eval r).dropped) := by
  rw [M.eval_logical, dropped_ite]
  simp [dropped]

theorem dropped_conditional (loc : Span) (t c a : Expr) :
    (M.eval (.conditional loc t c a)).dropped = (do
      let v ← M.eval t
      if M.truthy v then (M.eval c).dropped else (M.eval a).dropped) := by
  rw [M.eval_conditional, dropped_ite]

/-! ## What is kept -/

theorem dropped_of_not_hasEffects (h : p.hasEffects e = false) : (M.eval e).dropped = pure () := by
  refine Evaluating.ext fun s => ?_
  obtain ⟨v, hv⟩ := M.eval_pure e h s
  rw [dropped, from_bind, hv]

/-- What is kept of an expression has some effects, and they will be kept again. -/
def Kept (o : Option Expr) (m : Evaluating σ V Unit) : Prop :=
  M.optAct o = m ∧ ∀ e ∈ o, p.keepsEffects e = true

def AllKept (es : List Expr) (m : Evaluating σ V Unit) : Prop :=
  all M.eval es = m ∧ p.keepsAllEffects es = true

section Kept

variable {M} {o o' : Option Expr} {es' : List Expr} {m m' : Evaluating σ V Unit} {loc : Span}
  {optional pure : Bool} {callee : Expr}

theorem Kept.toList (h : M.Kept o m) : M.AllKept o.toList m := by
  cases o with
  | none => exact ⟨h.1, rfl⟩
  | some e => exact ⟨h.1, keepsAllEffects_iff.mpr fun x hx => List.mem_singleton.mp hx ▸ h.2 e rfl⟩

theorem AllKept.append (h : M.AllKept es m) (h' : M.AllKept es' m') :
    M.AllKept (es ++ es') (do m; m') := by
  refine ⟨by rw [all_append, h.1, h'.1], keepsAllEffects_iff.mpr fun x hx => ?_⟩
  rcases List.mem_append.mp hx with hx | hx
  · exact keepsAllEffects_iff.mp h.2 x hx
  · exact keepsAllEffects_iff.mp h'.2 x hx

theorem AllKept.sequence? (h : M.AllKept es m) : M.Kept (sequence? es) m := by
  unfold Purity.sequence?
  split
  · next hempty =>
    rw [List.isEmpty_iff.mp hempty] at h
    exact ⟨h.1, nofun⟩
  · next hempty =>
    have hne : es ≠ [] := fun heq => hempty (List.isEmpty_iff.mpr heq)
    refine ⟨?_, fun e he => Option.some.inj he ▸ keepsEffects_mkSequence hne h.2⟩
    rw [← h.1, ← dropped_last M.eval M.undefined hne, ← M.eval_mkSequence hne h.2]
    rfl

theorem kept_self (h : p.keepsEffects e = true) : M.Kept (some e) (M.eval e).dropped :=
  ⟨rfl, fun _ he => Option.some.inj he ▸ h⟩

theorem kept_ite (h : p.hasEffects e = true → M.Kept o (M.eval e).dropped) :
    M.Kept (if !p.hasEffects e then none else o) (M.eval e).dropped := by
  cases heffects : p.hasEffects e with
  | false => exact ⟨(M.dropped_of_not_hasEffects heffects).symm, nofun⟩
  | true => exact h heffects

theorem Kept.logical {op : LogicalOp} {l r : Expr}
    (hl : M.Kept o (M.eval l).dropped) (hkeeps : p.keepsEffects l = true) :
    M.Kept o' (M.eval r).dropped →
      M.Kept (match o' with | none => o | some r => some (.mkLogical op l r))
        (M.eval (.logical loc op l r)).dropped := by
  intro hr
  rw [M.dropped_logical, ← hr.1]
  cases o' with
  | none =>
    refine ⟨hl.1.trans ?_, hl.2⟩
    rw [dropped]
    congr
    funext v
    split <;> rfl
  | some r' =>
    refine ⟨M.dropped_logical _ _ _ _, ?_⟩
    rintro _ ⟨⟩
    exact Bool.and_eq_true_iff.mpr ⟨hkeeps, hr.2 r' rfl⟩

theorem Kept.conditional {t c a : Expr} {o'' : Option Expr} (ht : M.Kept o (M.eval t).dropped)
    (hc : M.Kept o' (M.eval c).dropped) (ha : M.Kept o'' (M.eval a).dropped)
    (hkeeps : p.keepsEffects t = true) :
    M.Kept (chooseEffects t o o' o'') (M.eval (.conditional loc t c a)).dropped := by
  rw [M.dropped_conditional, ← hc.1, ← ha.1]
  cases o' with
  | none =>
    cases o'' with
    | none =>
      refine ⟨ht.1.trans ?_, ht.2⟩
      rw [dropped]
      congr
      funext v
      split <;> rfl
    | some a' =>
      refine ⟨M.dropped_logical _ _ _ _, ?_⟩
      rintro _ ⟨⟩
      exact Bool.and_eq_true_iff.mpr ⟨hkeeps, ha.2 a' rfl⟩
  | some c' =>
    cases o'' with
    | none =>
      refine ⟨(M.dropped_logical _ _ _ _).trans ?_, ?_⟩
      · congr
        funext v
        cases h : M.truthy v <;> simp [decides, h, optAct]
      · rintro _ ⟨⟩
        exact Bool.and_eq_true_iff.mpr ⟨hkeeps, hc.2 c' rfl⟩
    | some a' =>
      refine ⟨M.dropped_conditional _ _ _ _, ?_⟩
      rintro _ ⟨⟩
      exact Bool.and_eq_true_iff.mpr ⟨Bool.and_eq_true_iff.mpr ⟨hkeeps, hc.2 c' rfl⟩, ha.2 a' rfl⟩

theorem kept_pureCall {parts kept : List Expr} (hcall : p.isPureCall callee pure = true)
    (hspread : es.any (·.isSpread) = false) (hoptional : optional = false)
    (hparts : p.calleeParts? callee = some parts) (hcallee : M.AllKept kept (all M.eval parts))
    (hes : M.AllKept es' (all M.eval es)) :
    M.Kept (sequence? (kept ++ es')) (M.eval (.call loc optional pure callee es)).dropped := by
  have hparts : p.parts? (.call loc optional pure callee es) = some (parts ++ es) := by
    simp [parts?, hcall, hspread, hoptional, hparts]
  rw [M.eval_parts _ _ hparts, all_append]
  exact (hcallee.append hes).sequence?

theorem kept_call (hcallee : ∀ mloc moptional o k, callee = .member mloc moptional o k → False)
    (h : p.keepsEffects (.call loc optional pure callee es) = true)
    (hes : p.keepsAllEffects es = true → M.AllKept (p.dropList es) (all M.eval es)) :
    M.Kept (p.dropUnused (.call loc optional pure callee es))
      (M.eval (.call loc optional pure callee es)).dropped := by
  rw [dropUnused]
  · refine kept_ite fun _ => ?_
    split
    · next hpure =>
      obtain ⟨hcall, hspread⟩ := Bool.and_eq_true_iff.mp hpure
      rw [Bool.not_eq_true'] at hspread
      rw [keepsEffects] at h
      · simp only [hcall, hspread, Bool.not_true, Bool.false_or, Bool.and_eq_true,
          Bool.not_eq_true'] at h
        have hparts : p.calleeParts? callee = some [] := by
          simp [calleeParts?, h.1.2]
        exact kept_pureCall hcall hspread h.1.1 hparts ⟨rfl, rfl⟩ (hes h.2)
      · exact hcallee
    · exact kept_self h
  · exact hcallee

end Kept

theorem all_keyParts {k : PropName} (h : p.keyEffects k = false) :
    all M.eval (keyParts k) = pure () := by
  cases k with
  | computed e => exact M.dropped_of_not_hasEffects h
  | _ => rfl

mutual

theorem kept_dropUnused : ∀ e, p.keepsEffects e = true → M.Kept (p.dropUnused e) (M.eval e).dropped
  | .sequence loc es, h => by
    obtain ⟨hne, hes⟩ := Bool.and_eq_true_iff.mp h
    rw [dropUnused]
    refine kept_ite fun _ => ?_
    have hne : es ≠ [] := by
      rintro rfl
      cases hne
    rw [M.eval_sequence loc es hne, dropped_last _ _ hne]
    exact (allKept_dropList es hes).sequence?
  | .binary loc op l r, h => by
    obtain ⟨hl, hr⟩ := Bool.and_eq_true_iff.mp h
    by_cases hin : op = .in
    · subst hin
      rw [dropUnused]
      exact kept_ite fun _ => kept_self h
    by_cases hinstanceof : op = .instanceof
    · subst hinstanceof
      rw [dropUnused]
      exact kept_ite fun _ => kept_self h
    have hparts : p.parts? (.binary loc op l r) = some [l, r] := by
      simp [parts?, hin, hinstanceof]
    rw [dropUnused]
    · refine kept_ite fun _ => ?_
      rw [M.eval_parts _ _ hparts]
      have h := ((kept_dropUnused l hl).toList.append (kept_dropUnused r hr).toList).sequence?
      rw [dropped, bind_assoc] at h
      exact h
    · exact hin
    · exact hinstanceof
  | .logical loc op l r, h => by
    obtain ⟨hl, hr⟩ := Bool.and_eq_true_iff.mp h
    rw [dropUnused]
    exact kept_ite fun _ => (kept_dropUnused l hl).logical hl (kept_dropUnused r hr)
  | .conditional loc t c a, h => by
    obtain ⟨htc, ha⟩ := Bool.and_eq_true_iff.mp h
    obtain ⟨ht, hc⟩ := Bool.and_eq_true_iff.mp htc
    rw [dropUnused]
    exact kept_ite fun _ =>
      (kept_dropUnused t ht).conditional (kept_dropUnused c hc) (kept_dropUnused a ha) ht
  | .unary loc op e, h => by
    rw [dropUnused]
    refine kept_ite fun heffects => ?_
    split
    · exact kept_self h
    · next hdelete =>
      have hparts : p.parts? (.unary loc op e) = some [e] := by
        cases op with
        | delete => exact absurd rfl hdelete
        | typeof => cases e <;> first | rfl | cases heffects
        | _ => rfl
      rw [M.eval_parts _ _ hparts]
      exact kept_dropUnused e h
  | .template loc qs es, h => by
    rw [dropUnused]
    refine kept_ite fun _ => ?_
    rw [M.eval_parts (.template loc qs es) es rfl]
    exact (allKept_dropList es h).sequence?
  | .array loc es, h => by
    rw [dropUnused]
    refine kept_ite fun _ => ?_
    split
    · exact kept_self h
    · next hspread =>
      rw [M.eval_parts (.array loc es) es.reduceOption (if_neg hspread)]
      exact (allKept_dropElements es h).sequence?
  | .member loc optional o k, h => by
    rw [dropUnused]
    refine kept_ite fun _ => ?_
    split
    · next hgetters =>
      rw [keepsEffects, hgetters] at h
      simp only [Bool.not_true, Bool.false_or, Bool.and_eq_true, Bool.not_eq_true'] at h
      obtain ⟨⟨hoptional, ho⟩, hk⟩ := h
      have hparts : p.parts? (.member loc optional o k) = some (o :: keyParts k) := by
        simp [parts?, hgetters, hoptional]
      rw [M.eval_parts _ _ hparts]
      have h := ((kept_dropUnused o ho).toList.append (allKept_dropKey k hk)).sequence?
      rw [dropped, bind_assoc] at h
      exact h
    · exact kept_self h
  | .call loc optional pure callee es, h => by
    cases callee with
    | member mloc moptional o k =>
      rw [dropUnused]
      refine kept_ite fun _ => ?_
      dsimp only
      split
      · next hpure =>
        obtain ⟨hcall, hspread⟩ := Bool.and_eq_true_iff.mp hpure
        rw [Bool.not_eq_true'] at hspread
        simp only [keepsEffects, hcall, hspread, Bool.not_true, Bool.false_or,
          Bool.and_eq_true, Bool.or_eq_true, Bool.not_eq_true'] at h
        obtain ⟨⟨hoptional, hcallee⟩, hes⟩ := h
        split
        · next heffects =>
          obtain ⟨⟨rfl, hkey⟩, ho⟩ := hcallee.resolve_left (by simp [heffects])
          have hkept : M.AllKept (p.dropUnused o).toList (all M.eval (o :: keyParts k)) := by
            rw [all, M.all_keyParts hkey]
            exact (kept_dropUnused o ho).toList
          have hparts : p.calleeParts? (.member mloc false o k) = some (o :: keyParts k) := by
            simp [calleeParts?, heffects]
          exact kept_pureCall hcall hspread hoptional hparts hkept (allKept_dropList es hes)
        · next heffects =>
          have hparts : p.calleeParts? (.member mloc moptional o k) = some [] := by
            simp [calleeParts?, heffects]
          exact kept_pureCall hcall hspread hoptional hparts ⟨rfl, rfl⟩ (allKept_dropList es hes)
      · exact kept_self h
    | _ => exact kept_call nofun h (allKept_dropList es)
  | .null _, h | .bool .., h | .num .., h | .str _, h | .bigint .., h | .regexp .., h
  | .ident _, h | .this _, h | .super _, h | .object .., h | .function _, h | .arrow _, h
  | .class _, h | .update .., h | .assign .., h | .new .., h | .chain .., h | .tagged .., h
  | .spread .., h | .yield .., h | .await .., h | .importCall .., h | .metaProperty .., h => by
    rw [dropUnused.eq_def]
    exact kept_ite fun _ => kept_self h

theorem allKept_dropList : ∀ es, p.keepsAllEffects es = true →
    M.AllKept (p.dropList es) (all M.eval es)
  | [], _ => ⟨rfl, rfl⟩
  | e :: es, h => by
    obtain ⟨he, hes⟩ := Bool.and_eq_true_iff.mp h
    have h := (kept_dropUnused e he).toList.append (allKept_dropList es hes)
    rw [dropped, bind_assoc] at h
    exact h

theorem allKept_dropElements : ∀ es, p.keepsElementEffects es = true →
    M.AllKept (p.dropElements es) (all M.eval es.reduceOption)
  | [], _ => ⟨rfl, rfl⟩
  | none :: es, h => allKept_dropElements es h
  | some e :: es, h => by
    obtain ⟨he, hes⟩ := Bool.and_eq_true_iff.mp h
    have h := (kept_dropUnused e he).toList.append (allKept_dropElements es hes)
    rw [dropped, bind_assoc] at h
    exact h

theorem allKept_dropKey : ∀ k, p.keepsKeyEffects k = true →
    M.AllKept (p.dropKey k) (all M.eval (keyParts k))
  | .computed e, h => (kept_dropUnused e h).toList
  | .ident _, _ | .privateName .., _ | .str _, _ | .num .., _ => ⟨rfl, rfl⟩

end

end Meaning

end Laconic
