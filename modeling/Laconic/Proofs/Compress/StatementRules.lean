import Laconic.Proofs.Compress.Body
import Laconic.Proofs.Compress.ExpressionRules

/-!
# The rules for statements

The rules for statements and for lists of statements keep to every vocabulary.  What stays
of a statement that never runs only declares names, so it may stand anywhere; a jump stays
inside the statement that it jumps to.
-/

namespace Laconic

open Compressor

namespace Vocabulary

variable {v : Vocabulary} {t t' : Targets} {c : Compressor}
variable {alternate : Option Stmt} {body consequent s : Stmt} {cases : List SwitchCase}
  {d : VarDecl} {e test : Expr} {init : ForInit} {limit : Nat} {list : List Stmt} {loc : Span}
  {strict : Bool} {update : Option Expr} {x x' : Compressor.Taking}

/-! ## Names without values -/

theorem stmt_declaring (kind : VarKind) (names : List Ident) (loc : Span) :
    v.stmt t (.declaring kind names loc) := by
  show v.declarators _
  rw [declarators_iff]
  intro d hd
  obtain ⟨id, _, rfl⟩ := List.mem_map.mp hd
  exact ⟨trivial, trivial⟩

theorem stmts_bare (d : VarDecl) (kind : VarKind) : v.stmts t (d.bare kind) := by
  unfold VarDecl.bare
  split
  · trivial
  · exact ⟨stmt_declaring kind _ d.loc, trivial⟩

theorem stmts_bareVar (d : VarDecl) : v.stmts t d.bareVar := by
  unfold VarDecl.bareVar
  split
  · exact stmts_bare d .var
  · trivial

theorem stmts_hoistedInit (init : ForInit) : v.stmts t init.hoisted := by
  cases init with
  | decl d => exact stmts_bareVar d
  | _ => trivial

theorem stmts_hoistedTarget (target : ForTarget) : v.stmts t target.hoisted := by
  cases target with
  | decl d => exact stmts_bareVar d
  | pat p => trivial

mutual

/-- What stays of a statement that never runs has no jumps, so it may stand anywhere. -/
theorem stmts_hoisted (strict direct : Bool) {t t' : Targets} :
    ∀ s : Stmt, v.stmt t s → v.stmts t' (s.hoisted strict direct)
  | .varDecl d, _ => by
    rw [Stmt.hoisted]
    split
    · exact stmts_bare d _
    · split
      · exact stmts_bare d _
      · trivial
  | .function f, h => by
    rw [Stmt.hoisted]
    split
    · exact ⟨h, trivial⟩
    · trivial
  | .class c, _ => by
    rw [Stmt.hoisted.eq_def]
    dsimp only
    split
    · exact ⟨stmt_declaring _ _ _, trivial⟩
    · trivial
  | .block ⟨_, body⟩, h => stmts_hoistedList strict body h
  | .if _ _ c a, h =>
    stmts_append.mpr ⟨stmts_hoisted strict false c h.2.1, stmts_hoistedOpt strict a h.2.2⟩
  | .for _ init _ _ body, h =>
    stmts_append.mpr ⟨stmts_hoistedInit init, stmts_hoisted strict false body h.2.2.2⟩
  | .forIn _ target _ body, h | .forOf _ _ target _ body, h =>
    stmts_append.mpr ⟨stmts_hoistedTarget target, stmts_hoisted strict false body h.2.2⟩
  | .while _ _ body, h | .doWhile _ body _, h | .with _ _ body, h =>
    stmts_hoisted strict false body h.2
  | .labeled _ _ body, h => stmts_hoisted strict false body h
  | .switch _ _ cases, h => stmts_hoistedCases strict cases h.2
  | .try _ ⟨_, b⟩ handler final, h =>
    stmts_append.mpr ⟨stmts_append.mpr ⟨stmts_hoistedList strict b h.1,
      stmts_hoistedHandler strict handler h.2.1⟩, stmts_hoistedBlock strict final h.2.2⟩
  | .expr .., _ | .return .., _ | .throw .., _ | .break .., _ | .continue .., _ | .debugger _, _
  | .empty _, _ | .directive .., _ | .importDecl .., _ | .exportNamed .., _ | .exportDecl .., _
  | .exportFunction .., _ | .exportClass .., _ | .exportExpr .., _ | .exportAll .., _ => trivial

theorem stmts_hoistedOpt (strict : Bool) {t t' : Targets} :
    ∀ s : Option Stmt, v.optStmt t s → v.stmts t' (Stmt.hoistedOpt strict s)
  | none, _ => trivial
  | some s, h => stmts_hoisted strict false s h

theorem stmts_hoistedList (strict : Bool) {t t' : Targets} :
    ∀ body : List Stmt, v.stmts t body → v.stmts t' (Stmt.hoistedList strict body)
  | [], _ => trivial
  | s :: rest, h =>
    stmts_append.mpr ⟨stmts_hoisted strict false s h.1, stmts_hoistedList strict rest h.2⟩

theorem stmts_hoistedCases (strict : Bool) {t t' : Targets} :
    ∀ cases : List SwitchCase, v.switchCases t cases → v.stmts t' (Stmt.hoistedCases strict cases)
  | [], _ => trivial
  | ⟨_, _, body⟩ :: rest, h =>
    stmts_append.mpr ⟨stmts_hoistedList strict body h.2.1, stmts_hoistedCases strict rest h.2.2⟩

theorem stmts_hoistedHandler (strict : Bool) {t t' : Targets} :
    ∀ handler : Option Handler, v.handler t handler →
      v.stmts t' (Stmt.hoistedHandler strict handler)
  | none, _ => trivial
  | some ⟨_, _, ⟨_, body⟩⟩, h => stmts_hoistedList strict body h.2

theorem stmts_hoistedBlock (strict : Bool) {t t' : Targets} :
    ∀ b : Option Block, v.optBlock t b → v.stmts t' (Stmt.hoistedBlock strict b)
  | none, _ => trivial
  | some ⟨_, body⟩, h => stmts_hoistedList strict body h

end

/-! ## Code that never runs -/

theorem stmts_effectsOf (h : v.expr e) : v.stmts t (c.effectsOf e) := by
  have hkept := optExpr_dropUnused c.purity e h
  unfold effectsOf
  cases hdrop : c.purity.dropUnused e with
  | none => trivial
  | some kept => exact ⟨expr_of_optExpr hkept kept hdrop, trivial⟩

theorem gives_unreached (h : v.stmt t s) : Gives (c.unreached s) (v.stmts t) := by
  unfold unreached
  split
  · exact .pure ⟨h, trivial⟩
  · exact .pure trivial
  · have hrest : Gives (do return s.hoisted (← isStrict) true) (v.stmts t) :=
      Gives.bind .unknown fun strict _ => .pure (stmts_hoisted strict true s h)
    exact .ite (fun _ => Gives.bind .unknown fun _ _ => hrest) fun _ => hrest

theorem gives_dropUnreachable (h : v.stmts t list) :
    Gives (c.dropUnreachable list) (v.stmts t) := by
  induction list with
  | nil => exact .pure trivial
  | cons s rest ih =>
    rw [dropUnreachable]
    refine .ite (fun _ => ?_) fun _ => (ih h.2).bind fun _ hrest => .pure ⟨h.1, hrest⟩
    have hunreached : ∀ x ∈ rest, Gives (c.unreached x) (v.stmts t) :=
      fun x hx => gives_unreached (stmts_iff.mp h.2 x hx)
    refine (Gives.mapM hunreached).bind fun lists hlists => .pure ⟨h.1, ?_⟩
    rw [stmts_iff]
    intro x hx
    obtain ⟨list, hlist, hx⟩ := List.mem_flatten.mp hx
    exact stmts_iff.mp (hlists list hlist) x hx

theorem gives_untaken {s : Option Stmt} (h : v.optStmt t s) : Gives (c.untaken s) (v.stmts t) := by
  cases s with
  | none => exact .pure trivial
  | some s =>
    rw [untaken]
    refine .ite (fun _ => .pure trivial) fun _ => ?_
    exact Gives.bind .unknown fun _ _ => Gives.bind .unknown fun strict _ =>
      .pure (stmts_hoisted strict false s h)

/-- Statements that may take the place of one keep to a vocabulary. -/
def optStmts (v : Vocabulary) (t : Targets) : Option (List Stmt) → Prop
  | none => True
  | some list => v.stmts t list

theorem stmts_toList {s : Option Stmt} (h : v.optStmt t s) : v.stmts t s.toList := by
  cases s with
  | none => trivial
  | some s => exact ⟨h, trivial⟩

theorem gives_pruneIf? {s : IfStmt} (h : v.stmt t s.toStmt) :
    Gives (c.pruneIf? s) fun r => v.optStmts t r.1 ∧ v.stmt t r.2.toStmt := by
  obtain ⟨ht, hc, ha⟩ := h
  unfold pruneIf?
  split
  · exact .pure ⟨trivial, ht, hc, ha⟩
  · next taken _ =>
    cases taken with
    | true =>
      refine (gives_untaken ha).bind fun hoisted hhoisted => .pure ⟨?_, trivial, trivial, trivial⟩
      exact stmts_append.mpr ⟨stmts_append.mpr ⟨stmts_effectsOf ht, hhoisted⟩, ⟨hc, trivial⟩⟩
    | false =>
      refine (gives_untaken (s := some s.consequent) hc).bind fun hoisted hhoisted =>
        .pure ⟨?_, trivial, trivial, trivial⟩
      exact stmts_append.mpr ⟨stmts_append.mpr ⟨stmts_effectsOf ht, hhoisted⟩, stmts_toList ha⟩

theorem stmts_of_headEffects? (h : v.forInit init) {head : List Stmt}
    (hhead : c.headEffects? init = some head) : v.stmts t head := by
  unfold headEffects? at hhead
  split at hhead
  · cases hhead
    trivial
  · cases hhead
    exact stmts_effectsOf h
  · split at hhead
    · cases hhead
      exact ⟨h, trivial⟩
    · cases hhead

theorem gives_pruneLoop? {s : ForStmt} (h : v.stmt t s.toStmt) :
    Gives (c.pruneLoop? s) fun r => (∀ t', v.optStmts t' r.1) ∧ v.stmt t r.2.toStmt := by
  obtain ⟨loc, init, test, update, body⟩ := s
  obtain ⟨hi, ht, hu, hb⟩ := h
  unfold pruneLoop?
  split
  · next known htest _ =>
    cases htest
    split
    · exact .pure ⟨fun _ => trivial, hi, ht, hu, hb⟩
    · next head hhead =>
      have hrest : Gives (do
          return (some (head ++ c.effectsOf known ++ body.hoisted (← isStrict) false),
            (⟨loc, .none, none, update, body⟩ : ForStmt)))
          fun r => (∀ t', v.optStmts t' r.1) ∧ v.stmt t r.2.toStmt := by
        refine Gives.bind .unknown fun strict _ => .pure
          ⟨fun t' => ?_, trivial, trivial, hu, hb⟩
        exact stmts_append.mpr
          ⟨stmts_append.mpr ⟨stmts_of_headEffects? hi hhead, stmts_effectsOf ht⟩,
            stmts_hoisted strict false body hb⟩
      exact .ite (fun _ => Gives.bind .unknown fun _ _ => hrest) fun _ => hrest
  · exact .pure ⟨fun _ => trivial, hi, ht, hu, hb⟩

mutual

theorem stmt_of_not_leavesSwitch {t : Targets} :
    ∀ s : Stmt, v.stmt t.inSwitch s → s.leavesSwitch = false → v.stmt t s
  | s, h, hleaves => by
    cases s with
    | «break» _ label =>
      cases label with
      | none => cases hleaves
      | some => exact h
    | block b =>
      obtain ⟨_, body⟩ := b
      exact stmts_of_not_leavesSwitch body h hleaves
    | «if» _ _ c a =>
      obtain ⟨hc, ha⟩ := Bool.or_eq_false_iff.mp hleaves
      exact ⟨h.1, stmt_of_not_leavesSwitch c h.2.1 hc, optStmt_of_not_leavesSwitch a h.2.2 ha⟩
    | labeled _ label body =>
      exact stmt_of_not_leavesSwitch (t := t.labeled label.name body.isLoop) body h hleaves
    | «with» _ _ body => exact ⟨h.1, stmt_of_not_leavesSwitch body h.2 hleaves⟩
    | «try» _ b handler final =>
      obtain ⟨_, body⟩ := b
      obtain ⟨hboth, hfinal⟩ := Bool.or_eq_false_iff.mp hleaves
      obtain ⟨hbody, hhandler⟩ := Bool.or_eq_false_iff.mp hboth
      exact ⟨stmts_of_not_leavesSwitch body h.1 hbody,
        handler_of_not_leavesSwitch handler h.2.1 hhandler,
        optBlock_of_not_leavesSwitch final h.2.2 hfinal⟩
    | «for» _ _ _ _ body =>
      exact ⟨h.1, h.2.1, h.2.2.1, stmt_mono (.inSwitch_inLoop t) body h.2.2.2⟩
    | forIn _ _ _ body | forOf _ _ _ _ body =>
      exact ⟨h.1, h.2.1, stmt_mono (.inSwitch_inLoop t) body h.2.2⟩
    | «while» _ _ body | doWhile _ body _ =>
      exact ⟨h.1, stmt_mono (.inSwitch_inLoop t) body h.2⟩
    | «continue» _ label => cases label <;> exact h
    | exportNamed _ _ source => cases source <;> exact h
    | _ => exact h

theorem optStmt_of_not_leavesSwitch {t : Targets} :
    ∀ s : Option Stmt, v.optStmt t.inSwitch s → Stmt.leavesSwitchOpt s = false → v.optStmt t s
  | none, _, _ => trivial
  | some s, h, hleaves => stmt_of_not_leavesSwitch s h hleaves

theorem stmts_of_not_leavesSwitch {t : Targets} :
    ∀ body : List Stmt, v.stmts t.inSwitch body → Stmt.leavesSwitchList body = false →
      v.stmts t body
  | [], _, _ => trivial
  | s :: rest, h, hleaves => by
    obtain ⟨hs, hrest⟩ := Bool.or_eq_false_iff.mp hleaves
    exact ⟨stmt_of_not_leavesSwitch s h.1 hs, stmts_of_not_leavesSwitch rest h.2 hrest⟩

theorem handler_of_not_leavesSwitch {t : Targets} :
    ∀ handler : Option Handler, v.handler t.inSwitch handler →
      Stmt.leavesSwitchHandler handler = false → v.handler t handler
  | none, _, _ => trivial
  | some ⟨_, _, ⟨_, body⟩⟩, h, hleaves => ⟨h.1, stmts_of_not_leavesSwitch body h.2 hleaves⟩

theorem optBlock_of_not_leavesSwitch {t : Targets} :
    ∀ b : Option Block, v.optBlock t.inSwitch b → Stmt.leavesSwitchBlock b = false →
      v.optBlock t b
  | none, _, _ => trivial
  | some ⟨_, body⟩, h, hleaves => stmts_of_not_leavesSwitch body h hleaves

end

/-- What is taken of a `switch` keeps to a vocabulary outside of it. -/
def taking (v : Vocabulary) (t : Targets) (x : Compressor.Taking) : Prop :=
  v.stmts t x.taken ∧ v.stmts t x.hoisted

theorem taking_step (h : v.taking t x) (hs : v.stmt t.inSwitch s)
    (hstep : Compressor.Taking.step strict x s = some x') : v.taking t x' := by
  unfold Compressor.Taking.step at hstep
  split at hstep
  · cases hstep
    exact ⟨h.1, stmts_append.mpr ⟨h.2, stmts_hoisted strict false s hs⟩⟩
  · split at hstep
    · cases hstep
      exact h
    · split at hstep
      · cases hstep
      · next hleaves =>
        cases hstep
        have hs' := stmt_of_not_leavesSwitch s hs (Bool.eq_false_iff.mpr hleaves)
        exact ⟨stmts_append.mpr ⟨h.1, hs', trivial⟩, h.2⟩

theorem taking_steps {body : List Stmt} (h : v.taking t x) (hbody : v.stmts t.inSwitch body)
    (hsteps : body.foldlM (Compressor.Taking.step strict) x = some x') : v.taking t x' := by
  induction body generalizing x with
  | nil =>
    cases hsteps
    exact h
  | cons s rest ih =>
    obtain ⟨x₁, hstep, hrest⟩ := Option.bind_eq_some_iff.mp hsteps
    exact ih (taking_step h hbody.1 hstep) hbody.2 hrest

theorem taking_cases {start : Option Nat} {i : Nat} (h : v.taking t x)
    (hcases : v.switchCases t.inSwitch cases)
    (htaken : Compressor.Taking.cases strict start i x cases = some x') : v.taking t x' := by
  induction cases generalizing i x with
  | nil =>
    cases htaken
    exact h
  | cons clause rest ih =>
    obtain ⟨loc, test, body⟩ := clause
    obtain ⟨x₁, hbody, hrest⟩ := Option.bind_eq_some_iff.mp htaken
    refine ih (taking_steps ?_ hcases.2.1 hbody) hcases.2.2 hrest
    split <;> exact h

theorem stmts_of_takenClauses? (hcases : v.switchCases t.inSwitch cases)
    (h : c.takenClauses? strict ⟨loc, e, cases⟩ = some list) : v.stmts t list := by
  unfold takenClauses? at h
  simp only [bind, Option.bind_eq_some_iff] at h
  obtain ⟨value, _, start, _, x, htaken, heq⟩ := h
  cases heq
  obtain ⟨htaken, hhoisted⟩ :=
    taking_cases (x := {}) (v := v) ⟨trivial, trivial⟩ hcases htaken
  refine stmts_append.mpr ⟨hhoisted, ?_⟩
  split
  · exact ⟨htaken, trivial⟩
  · exact htaken

/-! ## Choices -/

theorem all_spliceStmts (h : v.stmts t list) : (spliceStmts list).All (v.stmt t) := by
  unfold spliceStmts
  split
  · trivial
  · exact stmts_iff.mp h

theorem all_testEffects (h : v.expr test) : (c.testEffects test).All (v.stmt t) := by
  have hkept := optExpr_dropUnused c.purity test h
  unfold testEffects
  split
  · trivial
  · next e heq => exact (expr_of_optExpr hkept e heq : v.expr e)

theorem stmt_guarded {body : Expr} (ht : v.expr test) (hb : v.expr body) :
    v.stmt t (c.guarded test body) := by
  unfold guarded
  split
  · exact ⟨expr_negate ht, hb⟩
  · exact ⟨ht, hb⟩

theorem gives_pruned? {s : IfStmt} (h : v.stmt t s.toStmt) :
    Gives (c.pruned? s) fun r => v.optStmts t r.1 ∧ v.stmt t r.2.toStmt :=
  .ite (fun _ => gives_pruneIf? h) fun _ => .pure ⟨trivial, h⟩

theorem gives_optimizeThen (loc : Span) (ht : v.expr test) (hb : v.stmt t body) :
    Gives (c.optimizeThen loc test body) (·.All (v.stmt t)) := by
  fun_induction c.optimizeThen loc test body with
  | case1 test loc' inner body test' ih =>
    have ht' : v.expr test' := expr_condition ⟨ht, hb.1⟩
    have hif : v.stmt t (IfStmt.toStmt ⟨loc, test', body, none⟩) := ⟨ht', hb.2.1, trivial⟩
    refine (gives_pruned? hif).bind fun r hfound => ?_
    obtain ⟨found, left⟩ := r
    cases found with
    | some list => exact .pure (all_spliceStmts hfound.1)
    | none => exact .ite (fun _ => .pure (all_testEffects ht')) fun _ => ih ht' hb.2.1
  | case2 test loc' body => exact .pure (stmt_guarded (t := t) ht hb)
  | case3 test body => exact .pure ⟨ht, hb, trivial⟩

theorem stmt_optimizeElse {alternate : Stmt} (ht : v.expr test) (hc : v.stmt t consequent)
    (ha : v.stmt t alternate) : v.stmt t (optimizeElse loc test consequent alternate) := by
  unfold optimizeElse
  split <;> exact ⟨ht, hc, ha⟩

theorem gives_optimizeIf (ht : v.expr test) (hc : v.stmt t consequent)
    (ha : v.optStmt t alternate) :
    Gives (c.optimizeIf loc test consequent alternate) (·.All (v.stmt t)) := by
  have hif : v.stmt t (IfStmt.toStmt ⟨loc, c.condition test, consequent, alternate⟩) :=
    ⟨expr_condition ht, hc, ha⟩
  refine (gives_pruned? hif).bind fun r hfound => ?_
  obtain ⟨found, left⟩ := r
  cases found with
  | some list => exact .pure (all_spliceStmts hfound.1)
  | none =>
    obtain ⟨loc, test, consequent, alternate⟩ := left
    obtain ⟨ht', hc, ha⟩ : v.expr test ∧ v.stmt t consequent ∧ v.optStmt t alternate := hfound.2
    have ha' : v.optStmt t (alternate.filter fun s => !s.isVoid) := by
      cases alternate with
      | none => trivial
      | some s =>
        rw [Option.filter_some]
        split
        · exact ha
        · trivial
    refine .ite (fun _ => .pure ⟨ht', hc, ha'⟩) fun _ => .ite (fun _ => ?_) fun _ => ?_
    · split
      · exact .pure (all_testEffects ht')
      · next s hs =>
        rw [hs] at ha'
        exact gives_optimizeThen loc (expr_negate ht') ha'
    · split
      · exact gives_optimizeThen loc ht' hc
      · next s hs =>
        rw [hs] at ha'
        exact .ite (fun _ => .pure (stmt_optimizeElse (expr_negate ht') ha' hc))
          fun _ => .pure (stmt_optimizeElse ht' hc ha')

/-! ## Loops and `switch` -/

theorem expr_joinTests {test : Option Expr} {more : Expr} (ht : v.optExpr test)
    (hm : v.expr more) : v.expr (joinTests test more) := by
  cases test with
  | none => exact hm
  | some test => exact ⟨ht, hm⟩

theorem stmt_blockOrSingle {body : List Stmt} (h : v.stmts t body) :
    v.stmt t (.blockOrSingle loc body) := by
  unfold Stmt.blockOrSingle
  split
  · split
    · exact h
    · exact h.1
  · exact h

theorem expr_of_breakTest? (h : v.stmt t s) (htest : s.breakTest? = some test) : v.expr test := by
  unfold Stmt.breakTest? at htest
  split at htest
  · split at htest
    · cases htest
      exact h.1
    · cases htest
  · cases htest

theorem of_leadingBreak? {rest : Stmt} (h : v.stmt t body)
    (hbreak : body.leadingBreak? = some (test, rest)) : v.expr test ∧ v.stmt t rest := by
  unfold Stmt.leadingBreak? at hbreak
  split at hbreak
  · next htest =>
    cases hbreak
    exact ⟨expr_of_breakTest? h htest, trivial⟩
  · split at hbreak
    · obtain ⟨test', htest, heq⟩ := Option.map_eq_some_iff.mp hbreak
      cases heq
      refine ⟨expr_of_breakTest? h.1 htest, ?_⟩
      split
      · trivial
      · exact stmt_blockOrSingle h.2
    · cases hbreak

theorem optExpr_filter {test : Option Expr} (h : v.optExpr test) (keep : Expr → Bool) :
    v.optExpr (test.filter keep) := by
  cases test with
  | none => trivial
  | some test =>
    rw [Option.filter_some]
    split
    · exact h
    · trivial

theorem stmt_canonicalLoop {s : ForStmt} (h : v.stmt t s.toStmt) :
    v.stmt t (c.canonicalLoop s) := by
  obtain ⟨hi, ht, hu, hb⟩ := h
  unfold canonicalLoop
  split
  · exact ⟨hi, ht, hu, hb⟩
  · have ht' := optExpr_filter ht fun t => !c.alwaysHolds t
    split
    · next stop rest hbreak =>
      obtain ⟨hstop, hrest⟩ := of_leadingBreak? hb hbreak
      exact ⟨hi, expr_joinTests ht' (expr_negate hstop), hu, hrest⟩
    · exact ⟨hi, ht', hu, hb⟩

theorem isLoop_canonicalLoop (s : ForStmt) : (c.canonicalLoop s).isLoop = true := by
  unfold canonicalLoop
  split
  · rfl
  · split <;> rfl

/-- What takes the place of a loop is one, or no jump is left of it. -/
def Loops (v : Vocabulary) (t : Targets) (a : Action Stmt) : Prop :=
  (∃ s, a = .replace s ∧ s.isLoop = true ∧ v.stmt t s) ∨ ∀ t', a.All (v.stmt t')

theorem gives_prunedLoop? {s : ForStmt} (h : v.stmt t s.toStmt) :
    Gives (c.prunedLoop? s) fun r => (∀ t', v.optStmts t' r.1) ∧ v.stmt t r.2.toStmt :=
  .ite (fun _ => gives_pruneLoop? h) fun _ => .pure ⟨fun _ => trivial, h⟩

theorem gives_optimizeFor {test : Option Expr} (hi : v.forInit init) (ht : v.optExpr test)
    (hu : v.optExpr update) (hb : v.stmt t.inLoop body) :
    Gives (c.optimizeFor loc init test update body) (v.Loops t) := by
  have ht' : v.optExpr (test.map c.condition) := by
    cases test with
    | none => trivial
    | some test => exact expr_condition ht
  have hfor : v.stmt t (ForStmt.toStmt ⟨loc, init, test.map c.condition, update, body⟩) :=
    ⟨hi, ht', hu, hb⟩
  refine (gives_prunedLoop? hfor).bind fun r hfound => ?_
  obtain ⟨found, left⟩ := r
  cases found with
  | some list => exact .pure (.inr fun t' => all_spliceStmts (hfound.1 t'))
  | none => exact .pure (.inl ⟨_, rfl, isLoop_canonicalLoop left, stmt_canonicalLoop hfound.2⟩)

theorem Loops.all {a : Action Stmt} (h : v.Loops t a) : a.All (v.stmt t) := by
  obtain ⟨s, rfl, _, hs⟩ | hfree := h
  · exact hs
  · exact hfree t

theorem gives_optimizeStmt_loop (hloop : s.isLoop = true) (h : v.stmt t s) :
    Gives (c.optimizeStmt s) fun a =>
      (∃ s', a.settle s = .one s' ∧ s'.isLoop = true) ∨ ∀ t', (a.settle s).All (v.stmt t') := by
  have hsettle : ∀ a, v.Loops t a →
      (∃ s', a.settle s = .one s' ∧ s'.isLoop = true) ∨ ∀ t', (a.settle s).All (v.stmt t') := by
    rintro a (⟨s', rfl, hs', _⟩ | hfree)
    · exact .inl ⟨s', rfl, hs'⟩
    · cases a with
      | keep | stop => exact .inl ⟨s, rfl, hloop⟩
      | _ => exact .inr fun t' => hfree t'
  cases s with
  | «while» loc test body =>
    have hfor : Gives (c.optimizeFor loc .none (some test) none body) (v.Loops t) :=
      gives_optimizeFor trivial h.1 trivial h.2
    exact .ite (fun _ => hfor.mono hsettle)
      fun _ => .pure (.inl ⟨_, rfl, rfl⟩)
  | «for» loc init test update body =>
    exact (gives_optimizeFor h.1 h.2.1 h.2.2.1 h.2.2.2).mono hsettle
  | forIn | forOf | doWhile => exact .pure (.inl ⟨_, rfl, rfl⟩)
  | _ => cases hloop

theorem switchCases_dropLastBreak (h : v.switchCases t cases) :
    v.switchCases t (dropLastBreak cases) := by
  unfold dropLastBreak
  split
  · next loc test body hlast =>
    split
    · rw [switchCases_iff] at h ⊢
      obtain ⟨htest, hbody⟩ := h _ (List.mem_of_getLast? hlast)
      refine List.forall_mem_append.mpr
        ⟨fun x hx => h x (List.dropLast_subset cases hx), List.forall_mem_singleton.mpr ⟨htest, ?_⟩⟩
      exact stmts_iff.mpr fun s hs => stmts_iff.mp hbody s (List.dropLast_subset body hs)
    · exact h
  · exact h

theorem gives_optimizeSwitch (he : v.expr e) (hcases : v.switchCases t.inSwitch cases) :
    Gives (c.optimizeSwitch loc e cases) (·.All (v.stmt t)) := by
  refine .ite (fun _ => .pure trivial) fun _ => Gives.bind .unknown fun strict _ => ?_
  have hkept : Gives (σ := Progress)
      (if cases.all fun x => x.body.isEmpty && x.test.all fun t => !c.purity.hasEffects t then
        return c.testEffects e
      else return .replace (.switch loc e (dropLastBreak cases))) (·.All (v.stmt t)) :=
    .ite (fun _ => .pure (all_testEffects he))
      fun _ => .pure ⟨he, switchCases_dropLastBreak hcases⟩
  split
  · simp only [pruneSwitch?]
    cases hlist : c.takenClauses? strict ⟨loc, e, cases⟩ with
    | none => exact hkept
    | some list => exact .pure (all_spliceStmts (stmts_of_takenClauses? hcases hlist))
  · exact hkept

/-! ## Statements -/

theorem all_optimizeExprStmt (h : v.expr e) : (c.optimizeExprStmt loc e).All (v.stmt t) := by
  have hkept : v.optExpr (if c.options.sideEffects then c.purity.dropUnused e else some e) := by
    split
    · exact optExpr_dropUnused c.purity e h
    · exact h
  unfold optimizeExprStmt
  split
  · trivial
  · next e' heq =>
    have he' : v.expr e' := expr_of_optExpr hkept e' heq
    split
    · split <;> exact he'
    · exact he'

theorem gives_optimizeStmt (h : v.stmt t s) : Gives (c.optimizeStmt s) (·.All (v.stmt t)) := by
  unfold optimizeStmt
  split
  · exact .pure (all_optimizeExprStmt h)
  · refine .pure ?_
    split <;> trivial
  · exact .pure trivial
  · refine .pure ?_
    split
    · trivial
    · exact h.1
  · exact gives_optimizeIf h.1 h.2.1 h.2.2
  · next loc test body =>
    have hfor : Gives (c.optimizeFor loc .none (some test) none body) (v.Loops t) :=
      gives_optimizeFor trivial h.1 trivial h.2
    exact .ite (fun _ => hfor.mono fun _ => Loops.all) fun _ => .pure trivial
  · exact (gives_optimizeFor h.1 h.2.1 h.2.2.1 h.2.2.2).mono fun _ => Loops.all
  · exact gives_optimizeSwitch h.1 h.2
  · refine .pure ?_
    split <;> trivial
  · split
    · exact .pure h.2.2
    · exact .pure trivial
  · refine .pure ?_
    split <;> trivial
  · exact .pure trivial

/-! ## Values that are moved -/

open Collapse in
def found {α : Type} (P : α → Prop) : Search α → Prop
  | .placed a => P a
  | _ => True

section Collapse

open Collapse

theorem found_map {α β : Type} {P : α → Prop} {Q : β → Prop} {f : α → β} {s : Search α}
    (h : found P s) (hf : ∀ a, P a → Q (f a)) : found Q (s.map f) := by
  cases s with
  | placed a => exact hf a h
  | _ => trivial

theorem found_orElse {α : Type} {P : α → Prop} {first second : Search α} (h : found P first)
    (h' : found P second) : found P (first.orElse second) := by
  cases first with
  | absent => exact h'
  | _ => exact h

theorem found_orBlocked {α : Type} {P : α → Prop} {s : Search α} (h : found P s) :
    found P s.orBlocked := by
  cases s with
  | absent => trivial
  | _ => exact h

variable {m : Move}

theorem found_searchCallee (hvalue : v.expr m.value) {callee : Expr} {s : Search Expr}
    (h : found v.expr s) : found v.expr (m.searchCallee callee s) := by
  unfold Move.searchCallee
  split
  · split
    · split
      · trivial
      · exact hvalue
    · trivial
  · split
    · trivial
    · exact h

theorem found_or {a b d : Bool} (hvalue : v.expr m.value) {s : Search Expr} (h : found v.expr s) :
    found v.expr
      (if a then .placed m.value else if b then if d then .absent else .blocked else s) := by
  split
  · exact hvalue
  · split
    · split <;> trivial
    · exact h

mutual

theorem found_search (hvalue : v.expr m.value) (e : Expr) (h : v.expr e) :
    found v.expr (m.search e) := by
  rw [Move.search.eq_def]
  refine found_or hvalue ?_
  cases e with
  | unary loc op e =>
    dsimp only
    split
    · trivial
    · exact found_map (found_search hvalue e h) fun _ h => h
  | binary loc op l r =>
    exact found_orElse (found_map (found_search hvalue l h.1) fun _ hl => ⟨hl, h.2⟩)
      (found_map (found_search hvalue r h.2) fun _ hr => ⟨h.1, hr⟩)
  | logical loc op l r =>
    exact found_orBlocked (found_map (found_search hvalue l h.1) fun _ hl => ⟨hl, h.2⟩)
  | conditional loc t c a =>
    exact found_orBlocked (found_map (found_search hvalue t h.1) fun _ ht => ⟨ht, h.2⟩)
  | sequence loc es | template loc qs es =>
    exact found_map (found_searchList hvalue es h) fun _ h => h
  | member loc optional o k =>
    cases optional with
    | true => trivial
    | false =>
      exact found_orElse (found_map (found_search hvalue o h.1) fun _ ho => ⟨ho, h.2⟩)
        (found_map (found_searchName hvalue k h.2) fun _ hk => ⟨h.1, hk⟩)
  | call loc optional pure callee es =>
    cases optional with
    | true => trivial
    | false =>
      refine found_orElse (found_map
        (found_searchCallee hvalue (found_search hvalue callee h.1)) fun _ hc => ⟨hc, h.2⟩) ?_
      split
      · trivial
      · exact found_map (found_searchList hvalue es h.2) fun _ hes => ⟨h.1, hes⟩
  | new loc pure callee es =>
    refine found_orElse (found_map
      (found_searchCallee hvalue (found_search hvalue callee h.1)) fun _ hc => ⟨hc, h.2⟩) ?_
    split
    · trivial
    · exact found_map (found_searchList hvalue es h.2) fun _ hes => ⟨h.1, hes⟩
  | assign loc op p e =>
    have he := found_search hvalue e h.2
    cases p with
    | expr target =>
      cases target with
      | ident id =>
        cases op with
        | plain =>
          dsimp only
          split
          · trivial
          · exact found_map he fun _ he => ⟨h.1, he⟩
        | _ => trivial
      | _ => cases op <;> trivial
    | _ => cases op <;> trivial
  | array loc es =>
    dsimp only
    split
    · trivial
    · exact found_map (found_searchElements hvalue es h) fun _ h => h
  | _ => trivial

theorem found_searchList (hvalue : v.expr m.value) :
    ∀ es : List Expr, v.exprs es → found v.exprs (m.searchList es)
  | [], _ => trivial
  | e :: rest, h =>
    found_orElse (found_map (found_search hvalue e h.1) fun _ he => ⟨he, h.2⟩)
      (found_map (found_searchList hvalue rest h.2) fun _ hr => ⟨h.1, hr⟩)

theorem found_searchElements (hvalue : v.expr m.value) :
    ∀ es : List (Option Expr), v.elements es → found v.elements (m.searchElements es)
  | [], _ => trivial
  | none :: rest, h => found_map (found_searchElements hvalue rest h) fun _ h => h
  | some e :: rest, h =>
    found_orElse (found_map (found_search hvalue e h.1) fun _ he => ⟨he, h.2⟩)
      (found_map (found_searchElements hvalue rest h.2) fun _ hr => ⟨h.1, hr⟩)

theorem found_searchName (hvalue : v.expr m.value) :
    ∀ k : PropName, v.propName k → found v.propName (m.searchName k)
  | .computed e, h => found_map (found_search hvalue e h) fun _ h => h
  | .ident _, _ | .privateName .., _ | .str _, _ | .num .., _ => trivial

end

theorem found_searchDeclarators (hvalue : v.expr m.value) {ds : List Declarator}
    (h : v.declarators ds) : found v.declarators (m.searchDeclarators ds) := by
  unfold Move.searchDeclarators
  split
  · exact found_map (found_search hvalue _ h.2.1) fun _ he => ⟨h.1, he, h.2.2⟩
  · trivial

theorem found_searchStmt (hvalue : v.expr m.value) {s : Stmt} (h : v.stmt t s) :
    found (v.stmt t) (m.searchStmt s) := by
  unfold Move.searchStmt
  split
  iterate 3 exact found_map (found_search hvalue _ h) fun _ h => h
  · exact found_map (found_search hvalue _ h.1) fun _ ht => ⟨ht, h.2⟩
  · exact found_map (found_search hvalue _ h.1) fun _ he => ⟨he, h.2⟩
  · exact found_map (found_searchDeclarators hvalue (varDecl_iff.mp h)) fun _ h => h
  · exact found_map (found_search hvalue _ h.1) fun _ he => ⟨he, h.2⟩
  · exact found_map (found_searchDeclarators hvalue (varDecl_iff.mp h.1)) fun _ hd => ⟨hd, h.2⟩
  · trivial

theorem of_moveLast? {p : Purity} {toplevel : Bool} {d d' : VarDecl} {next next' : Stmt}
    (hd : v.varDecl d) (hnext : v.stmt t next)
    (h : moveLast? p toplevel d next = some (d', next')) : v.varDecl d' ∧ v.stmt t next' := by
  unfold moveLast? at h
  split at h
  · next hlast =>
    rw [varDecl_iff, declarators_iff] at hd
    simp only [bind, Option.bind_eq_some_iff] at h
    obtain ⟨id, _, s, _, h⟩ := h
    split at h
    · split at h
      · next hsearch =>
        cases h
        have hvalue := (hd _ (List.mem_of_getLast? hlast)).2
        have hfound := found_searchStmt (m := ⟨p, id, _⟩) hvalue hnext
        rw [hsearch] at hfound
        refine ⟨declarators_iff.mpr fun x hx => hd x (List.dropLast_subset _ hx), hfound⟩
      · cases h
    · cases h
  · cases h

theorem stmts_collapseFrom {p : Purity} {toplevel : Bool} {before rest : List Stmt} {s : Stmt}
    (hbefore : v.stmts t before) (hs : v.stmt t s) (hrest : v.stmts t rest) :
    v.stmts t (collapseFrom p toplevel before s rest) := by
  fun_induction collapseFrom p toplevel before s rest with
  | case1 before s =>
    rw [stmts_iff]
    intro x hx
    exact stmts_iff.mp (show v.stmts t (s :: before) from ⟨hs, hbefore⟩) x (List.mem_reverse.mp hx)
  | case2 next rest d d' next' h _ ih =>
    exact ih trivial (of_moveLast? hs hrest.1 h).2 hrest.2
  | case3 next rest d d' next' h _ last before ih =>
    exact ih hbefore.2 hbefore.1 ⟨(of_moveLast? hs hrest.1 h).2, hrest.2⟩
  | case4 before next rest d d' next' h _ ih =>
    obtain ⟨hd', hnext'⟩ := of_moveLast? hs hrest.1 h
    exact ih hbefore hd' ⟨hnext', hrest.2⟩
  | case5 before next rest d h ih | case6 before s next rest _ ih =>
    exact ih ⟨hs, hbefore⟩ hrest.1 hrest.2

end Collapse

theorem stmts_collapseVars {p : Purity} {toplevel : Bool} (h : v.stmts t list) :
    v.stmts t (collapseVars p toplevel list) := by
  cases list with
  | nil => trivial
  | cons s rest => exact stmts_collapseFrom trivial h.1 h.2

/-! ## Lists of statements -/

mutual

theorem stmts_opened (s : Stmt) (h : v.stmt t s) : v.stmts t s.opened := by
  cases s with
  | block b =>
    obtain ⟨_, body⟩ := b
    rw [Stmt.opened]
    split
    · exact ⟨h, trivial⟩
    · exact stmts_openedList body h
  | empty => trivial
  | _ => exact ⟨h, trivial⟩

theorem stmts_openedList : ∀ body : List Stmt, v.stmts t body → v.stmts t (Stmt.openedList body)
  | [], _ => trivial
  | s :: rest, h => stmts_append.mpr ⟨stmts_opened s h.1, stmts_openedList rest h.2⟩

end

mutual

theorem stmts_withoutElse (s : Stmt) (h : v.stmt t s) : v.stmts t s.withoutElse := by
  cases s with
  | «if» loc test c a =>
    cases a with
    | none => exact ⟨h, trivial⟩
    | some a =>
      rw [Stmt.withoutElse]
      split
      · exact ⟨⟨h.1, h.2.1, trivial⟩, stmts_elseBody a h.2.2⟩
      · exact ⟨h, trivial⟩
  | _ => exact ⟨h, trivial⟩

theorem stmts_elseBody (s : Stmt) (h : v.stmt t s) : v.stmts t s.elseBody := by
  cases s with
  | block b =>
    obtain ⟨_, body⟩ := b
    rw [Stmt.elseBody]
    split
    · exact ⟨h, trivial⟩
    · exact stmts_withoutElseList body h
  | «if» loc test c a =>
    cases a with
    | none => exact ⟨h, trivial⟩
    | some a =>
      rw [Stmt.elseBody]
      split
      · exact ⟨⟨h.1, h.2.1, trivial⟩, stmts_elseBody a h.2.2⟩
      · exact ⟨h, trivial⟩
  | _ => exact ⟨h, trivial⟩

theorem stmts_withoutElseList :
    ∀ body : List Stmt, v.stmts t body → v.stmts t (Stmt.withoutElseList body)
  | [], _ => trivial
  | s :: rest, h => stmts_append.mpr ⟨stmts_withoutElse s h.1, stmts_withoutElseList rest h.2⟩

end

theorem of_conditionalReturn? (h : v.stmt t s)
    (hreturn : s.conditionalReturn? = some (loc, test, e)) : v.expr test ∧ v.expr e := by
  unfold Stmt.conditionalReturn? at hreturn
  split at hreturn
  · cases hreturn
    exact ⟨h.1, h.2.1⟩
  · cases hreturn
    exact ⟨h.1, h.2.1.1⟩
  · cases hreturn

theorem stmts_mergeReturns (h : v.stmts t list) : v.stmts t (mergeReturns list) := by
  fun_induction mergeReturns list with
  | case1 s rloc other rest loc test e hreturn ih =>
    obtain ⟨ht, he⟩ := of_conditionalReturn? h.1 hreturn
    exact ⟨⟨ht, he, h.2.1⟩, ih h.2.2⟩
  | case2 s rloc other rest _ ih | case3 s rest _ ih => exact ⟨h.1, ih h.2⟩
  | case4 => trivial

theorem stmts_dropFinalReturn (h : v.stmts t list) : v.stmts t (dropFinalReturn list) := by
  unfold dropFinalReturn
  split
  · next last before hsplit =>
    split
    · rw [stmts_iff] at h ⊢
      refine List.forall_mem_append.mpr ⟨fun s hs => h s ?_, fun s hs => h s ?_⟩
      · have hmem : s ∈ list.reverse.dropWhile Stmt.isFunction := by
          rw [hsplit]
          exact List.mem_cons_of_mem _ (List.mem_reverse.mp hs)
        exact List.mem_reverse.mp (List.dropWhile_subset _ hmem)
      · exact List.mem_reverse.mp (List.takeWhile_subset _ (List.mem_reverse.mp hs))
    · exact h
  · exact h

theorem expr_after {first : Expr} (he : v.expr e) (hfirst : v.expr first) :
    v.expr (e.after first) :=
  expr_mkSequence (List.forall_mem_cons.mpr ⟨hfirst, List.forall_mem_singleton.mpr he⟩)

theorem stmt_of_prepend? {first : Expr} {s' : Stmt} (hfirst : v.expr first) (hs : v.stmt t s)
    (h : s.prepend? limit first = some s') : v.stmt t s' := by
  unfold Stmt.prepend? at h
  split at h
  · split at h
    · cases h
      exact expr_after hs hfirst
    · cases h
  · cases h
    exact expr_after hs hfirst
  · cases h
    exact expr_after hs hfirst
  · cases h
    exact ⟨expr_after hs.1 hfirst, hs.2⟩
  · cases h
    exact ⟨expr_after hs.1 hfirst, hs.2⟩
  · cases h
    exact ⟨expr_after hs.1 hfirst, hs.2⟩
  · cases h
    exact ⟨hfirst, hs.2⟩
  · cases h

theorem stmts_joinExpr {before : List Stmt} (hbefore : v.stmts t before) (hs : v.stmt t s) :
    v.stmts t (joinExpr limit before s) := by
  unfold joinExpr
  split
  · split
    · next heq => exact ⟨stmt_of_prepend? hbefore.1 hs heq, hbefore.2⟩
    · exact ⟨hs, hbefore⟩
  · exact ⟨hs, hbefore⟩

theorem stmts_foldl {f : List Stmt → Stmt → List Stmt}
    (hf : ∀ before s, v.stmts t before → v.stmt t s → v.stmts t (f before s)) (h : v.stmts t list) :
    v.stmts t (list.foldl f []).reverse := by
  have hfold : ∀ before, v.stmts t before → v.stmts t (list.foldl f before) := by
    induction list with
    | nil => exact fun _ h => h
    | cons s rest ih => exact fun before hbefore => ih h.2 _ (hf before s hbefore h.1)
  rw [stmts_iff]
  intro s hs
  exact stmts_iff.mp (hfold [] trivial) s (List.mem_reverse.mp hs)

theorem stmts_joinExprs (h : v.stmts t list) : v.stmts t (joinExprs limit list) :=
  stmts_foldl (fun _ _ => stmts_joinExpr) h

theorem declarators_append {ds ds' : List Declarator} (h : v.declarators ds)
    (h' : v.declarators ds') : v.declarators (ds ++ ds') := by
  rw [declarators_iff] at *
  exact List.forall_mem_append.mpr ⟨h, h'⟩

theorem declarators_of_vars? {vars : List Declarator} (h : v.forInit init)
    (hvars : init.vars? = some vars) : v.declarators vars := by
  unfold ForInit.vars? at hvars
  split at hvars
  · cases hvars
    trivial
  · split at hvars
    · cases hvars
      exact varDecl_iff.mp h
    · cases hvars
  · cases hvars

theorem stmts_joinDecl {before : List Stmt} (hbefore : v.stmts t before) (hs : v.stmt t s) :
    v.stmts t (joinDecl before s) := by
  unfold joinDecl
  split
  · next d rest next =>
    split
    · exact ⟨declarators_append (varDecl_iff.mp hbefore.1) (varDecl_iff.mp hs), hbefore.2⟩
    · exact ⟨hs, hbefore⟩
  · split
    · next hvars _ =>
      refine ⟨⟨varDecl_iff.mpr (declarators_append (varDecl_iff.mp hbefore.1) ?_), hs.2⟩, hbefore.2⟩
      exact declarators_of_vars? hs.1 hvars
    · exact ⟨hs, hbefore⟩
  · exact ⟨hs, hbefore⟩

theorem stmts_joinDecls (h : v.stmts t list) : v.stmts t (joinDecls list) :=
  stmts_foldl (fun _ _ => stmts_joinDecl) h

theorem gives_guardRest {rest : List Stmt} (hs : v.stmt t s) (hrest : v.stmts t rest) :
    Gives (c.guardRest s rest) (v.stmts t) := by
  unfold guardRest
  split
  · refine .ite (fun _ => .pure ⟨hs, hrest⟩) fun _ => .ite (fun _ => .pure (stmts_effectsOf hs.1))
      fun _ => ?_
    have hjoined : v.stmts t (if c.options.sequences then c.joinSequences rest else rest) := by
      split
      · exact stmts_joinExprs hrest
      · exact hrest
    have ht := expr_negate (c := c) hs.1
    refine (gives_optimizeIf ht (stmt_blockOrSingle hjoined) hs.2.2).bind fun a ha => .pure ?_
    refine stmts_iff.mpr (Action.All.settle ha ?_).toList
    exact ⟨ht, stmt_blockOrSingle hjoined, hs.2.2⟩
  · exact .pure ⟨hs, hrest⟩

theorem gives_mergeIfReturns {kind : BodyKind} (h : v.stmts t list) :
    Gives (c.mergeIfReturns kind list) (v.stmts t) := by
  have hmerged := stmts_mergeReturns (stmts_withoutElseList list h)
  refine .ite (fun _ => ?_) fun _ => .pure hmerged
  have hfold : ∀ list : List Stmt, v.stmts t list →
      Gives (list.foldrM c.guardRest []) (v.stmts t) := by
    intro list h
    induction list with
    | nil => exact .pure trivial
    | cons s rest ih =>
      rw [List.foldrM_cons]
      exact (ih h.2).bind fun _ hrest => gives_guardRest h.1 hrest
  exact hfold _ (stmts_dropFinalReturn hmerged)

theorem stmts_joined (h : v.stmts t list) : let collapsed :=
      if c.options.collapseVars then collapseVars c.purity c.toplevel list else list
    let joined := if c.options.sequences then c.joinSequences collapsed else collapsed
    v.stmts t (if c.options.joinVars then joinDecls joined else joined) := by
  intro collapsed joined
  have hcollapsed : v.stmts t collapsed := by
    dsimp only [collapsed]
    split
    · exact stmts_collapseVars h
    · exact h
  have hjoined : v.stmts t joined := by
    dsimp only [joined]
    split
    · exact stmts_joinExprs hcollapsed
    · exact hcollapsed
  split
  · exact stmts_joinDecls hjoined
  · exact hjoined

theorem gives_optimizeBody {kind : BodyKind} (h : v.stmts t list) :
    Gives (c.optimizeBody kind list) (v.stmts t) := by
  have hopened := stmts_openedList list h
  refine .ite (fun _ => (gives_dropUnreachable hopened).bind fun list h => ?_)
    fun _ => Gives.bind (P := v.stmts t) (.pure hopened) fun list h => ?_
  all_goals
    exact .ite (fun _ => (gives_mergeIfReturns h).bind fun _ h => .pure (stmts_joined h))
      fun _ => Gives.bind (P := v.stmts t) (.pure h) fun _ h => .pure (stmts_joined h)

end Vocabulary

end Laconic
