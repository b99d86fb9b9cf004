import Laconic.Compress.Unreachable
import Laconic.Proofs.Semantics.Meaning

/-!
# Code that never runs

What stays of a removed statement declares variables without values, and functions: it does
nothing.  So a `switch` whose value is known can be replaced by the statements from the
clause that is chosen up to the first `break`, provided that no other `break` in them leaves
the `switch`.
-/

namespace Laconic

variable {d : VarDecl}

/-! ## What stays of removed statements -/

/-- Whether a statement declares a function, or variables without values. -/
def Stmt.isPlain : Stmt → Bool
  | .function _ => true
  | s => s.isBareDeclaration

/-- All statements of a list are plain declarations. -/
def Plain (body : List Stmt) : Prop := ∀ s ∈ body, s.isPlain = true

@[simp] theorem plain_nil : Plain [] := nofun

@[simp] theorem plain_cons {s : Stmt} {body : List Stmt} :
    Plain (s :: body) ↔ s.isPlain = true ∧ Plain body :=
  List.forall_mem_cons

@[simp] theorem plain_append {a b : List Stmt} : Plain (a ++ b) ↔ Plain a ∧ Plain b :=
  List.forall_mem_append

@[simp] theorem isPlain_function (f : Func) : (Stmt.function f).isPlain = true := rfl

@[simp] theorem isPlain_declaring (kind : VarKind) (names : List Ident) (loc : Span) :
    (Stmt.declaring kind names loc).isPlain = true := by
  simp [Stmt.isPlain, Stmt.declaring, Stmt.isBareDeclaration]

@[simp] theorem plain_bare {kind : VarKind} : Plain (d.bare kind) := by
  unfold VarDecl.bare
  split <;> simp

@[simp] theorem plain_bareVar : Plain d.bareVar := by
  unfold VarDecl.bareVar
  split <;> simp

@[simp] theorem plain_headInit (init : ForInit) : Plain init.hoisted := by
  cases init <;> simp [ForInit.hoisted]

@[simp] theorem plain_headTarget (target : ForTarget) : Plain target.hoisted := by
  cases target <;> simp [ForTarget.hoisted]

theorem plain_hoisted (strict direct : Bool) (s : Stmt) : Plain (Stmt.hoisted strict direct s) := by
  revert direct s
  apply Stmt.hoisted.induct strict
    (fun direct s => Plain (Stmt.hoisted strict direct s))
    (fun b => Plain (Stmt.hoistedBlock strict b))
    (fun body => Plain (Stmt.hoistedList strict body))
    (fun h => Plain (Stmt.hoistedHandler strict h))
    (fun cases => Plain (Stmt.hoistedCases strict cases))
    (fun s => Plain (Stmt.hoistedOpt strict s))
  all_goals
    intros
    simp only [Stmt.hoisted, Stmt.hoistedBlock, Stmt.hoistedList, Stmt.hoistedHandler,
      Stmt.hoistedCases, Stmt.hoistedOpt]
  all_goals
    repeat' split
  all_goals simp_all

/-! ## Running statements -/

namespace Behaviour

variable {σ V α : Type} {a b : Behaviour σ V}

/-- Goes on in a way that depends on how something has ended. -/
def followed (a : Behaviour σ V) (f : Completion V → Behaviour σ V) : Behaviour σ V :=
  fun s c s' => ∃ c₁ s₁, a s c₁ s₁ ∧ f c₁ s₁ c s'

/-- Never ends by a jump out of the nearest `switch`. -/
def Stays (a : Behaviour σ V) : Prop := ∀ s s', ¬a s (.break none) s'

theorem stays_ends {c : Completion V} (h : c ≠ .break none) : Stays (ends c : Behaviour σ V) :=
  fun _ _ heq => h heq.1.symm

theorem stays_skip : Stays (skip : Behaviour σ V) := stays_ends nofun

theorem Stays.seq (ha : a.Stays) (hb : b.Stays) : (seq a b).Stays := by
  rintro s s' (⟨s₁, -, h⟩ | ⟨-, h⟩)
  · exact hb _ _ h
  · exact ha _ _ h

theorem stays_evaluated {m : Evaluating σ V α} {k : α → Behaviour σ V} (h : ∀ x, (k x).Stays) :
    (evaluated m k).Stays := by
  intro s s'
  rcases hm : m.from s with ⟨v | x, s₁⟩
  · rw [evaluated_error hm]
    exact stays_ends (c := .throw v) nofun _ _
  · rw [evaluated_ok hm]
    exact h _ _ _

theorem Stays.followed {f : Completion V → Behaviour σ V} (ha : a.Stays)
    (hf : ∀ c, c ≠ .break none → (f c).Stays) : (followed a f).Stays := by
  rintro s s' ⟨c, s₁, hc, h⟩
  refine hf c ?_ _ _ h
  rintro rfl
  exact ha _ _ hc

theorem Stays.labeled (h : a.Stays) (label : String) : (labeled label a).Stays := by
  rintro s s' (⟨heq, -⟩ | ⟨-, ha⟩)
  · cases heq
  · exact h _ _ ha

theorem afterLoop_ne (c : Completion V) : c.afterLoop ≠ .break none := by
  unfold Completion.afterLoop
  split
  · exact nofun
  · assumption

theorem stays_rounds (labels : List String) (test : Evaluating σ V Bool)
    (update : Evaluating σ V Unit) : Stays (Rounds labels test update a) := by
  intro s s' h
  generalize hc : Completion.break none = c at h
  induction h with
  | next _ _ _ _ _ ih => exact ih hc
  | leave => exact afterLoop_ne _ hc.symm
  | _ => cases hc

theorem stays_switched : (switched a).Stays := by
  rintro s s' (⟨heq, -⟩ | ⟨hne, -⟩)
  · cases heq
  · exact hne rfl

theorem switched_seq (ha : a.Stays) : switched (seq a b) = seq a (switched b) := by
  refine ext fun s c s' => ⟨?_, ?_⟩
  · rintro (⟨rfl, ⟨s₁, h, hb⟩ | ⟨-, h⟩⟩ | ⟨hc, ⟨s₁, h, hb⟩ | ⟨hn, h⟩⟩)
    · exact .inl ⟨s₁, h, .inl ⟨rfl, hb⟩⟩
    · exact absurd h (ha _ _)
    · exact .inl ⟨s₁, h, .inr ⟨hc, hb⟩⟩
    · exact .inr ⟨hn, h⟩
  · rintro (⟨s₁, h, ⟨rfl, hb⟩ | ⟨hc, hb⟩⟩ | ⟨hn, h⟩)
    · exact .inl ⟨rfl, .inl ⟨s₁, h, hb⟩⟩
    · exact .inr ⟨hc, .inl ⟨s₁, h, hb⟩⟩
    · refine .inr ⟨?_, .inr ⟨hn, h⟩⟩
      rintro rfl
      exact ha _ _ h

theorem switched_break : switched (ends (.break none)) = (skip : Behaviour σ V) := by
  refine ext fun s c s' => ⟨?_, fun h => .inl ⟨h.1, rfl, h.2⟩⟩
  rintro (⟨rfl, -, h⟩ | ⟨hc, h, -⟩)
  · exact ⟨rfl, h⟩
  · exact absurd h hc

theorem switched_skip : switched skip = (skip : Behaviour σ V) := by
  refine ext fun s c s' => ⟨?_, fun h => .inr ⟨h.1 ▸ nofun, h⟩⟩
  rintro (⟨-, h, -⟩ | ⟨-, h⟩)
  · cases h
  · exact h

end Behaviour

/-- What is left open about running statements.  Expressions may do anything, but one whose
value is known has this value. -/
structure Execution (k : Knowledge) (σ V : Type) where
  eval : Expr → Evaluating σ V V
  const : Value → V
  undefined : V
  truthy : V → Bool
  /-- Whether a clause of a `switch` with a value is chosen. -/
  same : V → V → Bool
  /-- Gives a value to what is declared. -/
  assign : Pat → V → Evaluating σ V Unit
  /-- What a loop over an object or a `with` does at its start. -/
  enter : Stmt → Evaluating σ V V
  /-- Whether a loop over an object has another round. -/
  next : Stmt → V → Evaluating σ V Bool
  /-- What a loop over an object or a `with` does when it has ended in some way. -/
  leave : Stmt → V → Completion V → Evaluating σ V Unit
  /-- What classes, imports and exports do. -/
  other : Stmt → Evaluating σ V Unit
  eval_const : ∀ e v, e.evaluate k = .ok v → eval e = pure (const v)
  same_const : ∀ v w, same (const v) (const w) = v.strictEquals w

namespace Execution

open Behaviour
open Meaning (Clause fallThrough)

variable {k : Knowledge} {σ V : Type} (X : Execution k σ V) {value : Value} {i : Nat}

/-- Whether a condition holds. -/
def test (e : Expr) : Evaluating σ V Bool := do return X.truthy (← X.eval e)

/-- Declares variables; one without a value is left alone. -/
def declarators : List Declarator → Evaluating σ V Unit
  | [] => return ()
  | ⟨_, _, none⟩ :: ds => declarators ds
  | ⟨_, target, some e⟩ :: ds => do
    X.assign target (← X.eval e)
    declarators ds

def forInit : ForInit → Evaluating σ V Unit
  | .none => return ()
  | .decl d => X.declarators d.declarators
  | .expr e => (X.eval e).dropped

/-- Does something between the start and the end of a statement. -/
def within (s : Stmt) (a : V → Behaviour σ V) : Behaviour σ V :=
  evaluated (X.enter s) fun v => followed (a v) fun c => evaluated (X.leave s v c) fun _ => ends c

/-- The clauses from the first one on that is chosen for a value, if one is. -/
def chosen (v : V) : List (Clause σ V) → Evaluating σ V (Option (Behaviour σ V))
  | [] => return none
  | (none, _) :: xs => chosen v xs
  | (some e, a) :: xs => do
    if X.same v (← X.eval e) then return some (seq a (fallThrough xs)) else chosen v xs

/-- The clauses from the last default on. -/
def fromDefault : List (Clause σ V) → Option (Behaviour σ V)
  | [] => none
  | (e, a) :: xs =>
    (fromDefault xs).or (if e.isNone then some (seq a (fallThrough xs)) else none)

mutual

/-- What a statement with some labels does. -/
def stmt (labels : List String) : Stmt → Behaviour σ V
  | .block ⟨_, body⟩ => list body
  | .varDecl d => evaluated (X.declarators d.declarators) fun _ => skip
  | .function _ | .empty _ | .debugger _ | .directive .. => skip
  | .expr _ e => evaluated (X.eval e) fun _ => skip
  | .if _ t c a => evaluated (X.test t) fun b => if b then stmt [] c else optStmt a
  | .for _ init test update body =>
    evaluated (X.forInit init) fun _ =>
      Rounds labels (test.elim (return true) X.test)
        (update.elim (return ()) fun e => (X.eval e).dropped) (stmt [] body)
  | .while _ t body => Rounds labels (X.test t) (pure ()) (stmt [] body)
  | .doWhile _ body t =>
    -- the condition is not looked at before the first round
    followed (stmt [] body) fun c =>
      if c.goesOn labels then Rounds labels (X.test t) (pure ()) (stmt [] body)
      else ends c.afterLoop
  | s@(.forIn _ _ _ body) | s@(.forOf _ _ _ _ body) =>
    X.within s fun v => Rounds labels (X.next s v) (pure ()) (stmt [] body)
  | s@(.with _ _ body) => X.within s fun _ => stmt [] body
  | .switch _ e cases =>
    evaluated (X.eval e) fun v => evaluated (X.chosen v (clauses cases)) fun a =>
      switched ((a.or (fromDefault (clauses cases))).getD skip)
  | .try _ ⟨_, b⟩ h f => followed (followed (list b) (handler h)) fun c =>
    seq (finalizer f) (ends c)
  | .return _ none => ends (.return X.undefined)
  | .return _ (some e) => evaluated (X.eval e) fun v => ends (.return v)
  | .throw _ e => evaluated (X.eval e) fun v => ends (.throw v)
  | .break _ label => ends (.break (label.map (·.name)))
  | .continue _ label => ends (.continue (label.map (·.name)))
  | .labeled _ label body => labeled label.name (stmt (label.name :: labels) body)
  | s => evaluated (X.other s) fun _ => skip

/-- What statements do one after the other. -/
def list : List Stmt → Behaviour σ V
  | [] => skip
  | s :: rest => seq (stmt [] s) (list rest)

def optStmt : Option Stmt → Behaviour σ V
  | none => skip
  | some s => stmt [] s

/-- The clauses of a `switch`, each with what its statements do. -/
def clauses : List SwitchCase → List (Clause σ V)
  | [] => []
  | ⟨_, test, body⟩ :: rest => (test, list body) :: clauses rest

/-- What is done after a block that has ended in some way. -/
def handler : Option Handler → Completion V → Behaviour σ V
  | none => ends
  | some ⟨_, param, ⟨_, body⟩⟩ => fun c =>
    match c with
    | .throw v => evaluated (param.elim (return ()) (X.assign · v)) fun _ => list body
    | c => ends c

def finalizer : Option Block → Behaviour σ V
  | none => skip
  | some ⟨_, body⟩ => list body

end

variable {X}

theorem list_cons (s : Stmt) (ss : List Stmt) : X.list (s :: ss) = seq (X.stmt [] s) (X.list ss) :=
  rfl

theorem clauses_cons (loc : Span) (test : Option Expr) (body : List Stmt)
    (cases : List SwitchCase) :
    X.clauses (⟨loc, test, body⟩ :: cases) = (test, X.list body) :: X.clauses cases :=
  rfl

theorem list_append (ss ss' : List Stmt) : X.list (ss ++ ss') = seq (X.list ss) (X.list ss') := by
  induction ss with
  | nil => exact (skip_seq _).symm
  | cons s ss ih => rw [List.cons_append, list_cons, list_cons, ih, Behaviour.seq_assoc]

theorem list_singleton (s : Stmt) : X.list [s] = X.stmt [] s :=
  seq_skip _

theorem declarators_of_bare {ds : List Declarator} (h : ds.all (·.init.isNone) = true) :
    X.declarators ds = pure () := by
  induction ds with
  | nil => rfl
  | cons d ds ih =>
    obtain ⟨loc, target, _ | e⟩ := d
    · exact ih (by simpa using h)
    · simp at h

theorem list_of_plain {ss : List Stmt} (h : Plain ss) : X.list ss = skip := by
  induction ss with
  | nil => rfl
  | cons s ss ih =>
    obtain ⟨hs, hss⟩ := plain_cons.mp h
    rw [list_cons, ih hss, seq_skip]
    cases s with
    | function => rfl
    | varDecl d =>
      show evaluated (X.declarators d.declarators) (fun _ => skip) = skip
      rw [declarators_of_bare hs]
      rfl
    | _ => cases hs

/-! ## Leaving a `switch` -/

mutual

theorem stays_stmt (labels : List String) :
    ∀ s : Stmt, s.leavesSwitch = false → (X.stmt labels s).Stays
  | s, h => by
    cases s with
    | block b =>
      obtain ⟨_, body⟩ := b
      exact stays_list body h
    | «if» _ _ c a =>
      obtain ⟨hc, ha⟩ := Bool.or_eq_false_iff.mp h
      refine stays_evaluated fun b => ?_
      cases b
      · exact stays_optStmt a ha
      · exact stays_stmt [] c hc
    | «for» =>
      exact stays_evaluated fun _ => stays_rounds _ _ _
    | «while» =>
      exact stays_rounds _ _ _
    | doWhile _ body t =>
      rintro s s' ⟨c, s₁, -, hend⟩
      split at hend
      · exact stays_rounds _ _ _ _ _ hend
      · exact afterLoop_ne c hend.1.symm
    | forIn | forOf =>
      exact stays_evaluated fun _ => (stays_rounds _ _ _).followed fun c hc =>
        stays_evaluated fun _ => stays_ends hc
    | «with» _ _ body =>
      exact stays_evaluated fun _ => (stays_stmt [] body h).followed fun c hc =>
        stays_evaluated fun _ => stays_ends hc
    | «switch» =>
      exact stays_evaluated fun _ => stays_evaluated fun _ => stays_switched
    | «try» _ b hd f =>
      obtain ⟨_, b⟩ := b
      obtain ⟨hboth, hf⟩ := Bool.or_eq_false_iff.mp h
      obtain ⟨hb, hh⟩ := Bool.or_eq_false_iff.mp hboth
      exact ((stays_list b hb).followed (stays_handler hd hh)).followed fun c hc =>
        (stays_finalizer f hf).seq (stays_ends hc)
    | «return» _ e =>
      cases e
      · exact stays_ends nofun
      · exact stays_evaluated fun _ => stays_ends nofun
    | throw =>
      exact stays_evaluated fun _ => stays_ends nofun
    | «break» _ label =>
      cases label with
      | none => cases h
      | some => exact stays_ends nofun
    | «continue» => exact stays_ends nofun
    | labeled _ label body =>
      exact (stays_stmt _ body h).labeled _
    | function | empty | debugger | directive => exact stays_skip
    | _ => exact stays_evaluated fun _ => stays_skip

theorem stays_list : ∀ ss : List Stmt, Stmt.leavesSwitchList ss = false → (X.list ss).Stays
  | [], _ => stays_skip
  | s :: ss, h => by
    obtain ⟨hs, hss⟩ := Bool.or_eq_false_iff.mp h
    exact (stays_stmt [] s hs).seq (stays_list ss hss)

theorem stays_optStmt :
    ∀ s : Option Stmt, Stmt.leavesSwitchOpt s = false → (X.optStmt s).Stays
  | none, _ => stays_skip
  | some s, h => stays_stmt [] s h

theorem stays_handler : ∀ hd : Option Handler, Stmt.leavesSwitchHandler hd = false →
    ∀ c, c ≠ .break none → (X.handler hd c).Stays
  | none, _, c, hc => stays_ends hc
  | some ⟨_, param, ⟨_, body⟩⟩, h, c, hc => by
    cases c with
    | throw v => exact stays_evaluated fun _ => stays_list body h
    | _ => exact stays_ends hc

theorem stays_finalizer :
    ∀ f : Option Block, Stmt.leavesSwitchBlock f = false → (X.finalizer f).Stays
  | none, _ => stays_skip
  | some ⟨_, body⟩, h => stays_list body h

end

/-! ## The clause that is chosen -/

variable {c : Compressor} {strict : Bool} {loc : Span} {e : Expr} {cases : List SwitchCase}

/-- What the clauses from a number on do. -/
def fromClause (X : Execution k σ V) (cases : List SwitchCase) (i : Nat) : Behaviour σ V :=
  fallThrough ((X.clauses cases).drop i)

/-- The values of the tests of clauses. -/
def knownTests (k : Knowledge) (cases : List SwitchCase) : Option (List (Option Value)) :=
  cases.mapM fun x =>
    match x.test with
    | none => some none
    | some test => (test.evaluate k).toOption.map some

theorem evaluate_of_toOption (h : (e.evaluate k).toOption = some value) :
    X.eval e = pure (X.const value) := by
  refine X.eval_const e value ?_
  cases heval : e.evaluate k <;> rw [heval] at h <;> cases h
  rfl

/-- The first clause with an equal value is chosen; the default is the last clause without a
test. -/
theorem chosen_and_default {values : List (Option Value)} (h : knownTests k cases = some values)
    (value : Value) : X.chosen (X.const value) (X.clauses cases)
        = pure ((values.findIdx? fun v => v.any value.strictEquals).map (X.fromClause cases)) ∧
      fromDefault (X.clauses cases) = ((List.range cases.length).filter fun i =>
        values[i]?.any (·.isNone)).getLast?.map (X.fromClause cases) := by
  induction cases generalizing values with
  | nil =>
    cases h
    exact ⟨rfl, rfl⟩
  | cons clause cases ih =>
    obtain ⟨loc, test, body⟩ := clause
    obtain ⟨v, hv, values, hvalues, rfl⟩ : ∃ v, _ = some v ∧ ∃ vs, knownTests k cases = some vs ∧
        v :: vs = values := by
      simpa [knownTests, List.mapM_cons, Option.bind_eq_some_iff] using h
    obtain ⟨hchosen, hdefault⟩ := ih hvalues
    have hnext : X.fromClause (⟨loc, test, body⟩ :: cases) ∘ (· + 1) = X.fromClause cases := rfl
    have hlist : (List.range (cases.length + 1)).filter (fun i => (v :: values)[i]?.any (·.isNone))
        = (if v.isNone then [0] else []) ++ ((List.range cases.length).filter fun i =>
          values[i]?.any (·.isNone)).map (· + 1) := by
      rw [List.range_succ_eq_map, List.filter_cons, List.filter_map]
      cases v <;> rfl
    rw [clauses_cons, fromDefault, hdefault, List.length_cons, hlist, List.getLast?_append,
      Option.map_or,
      List.getLast?_map, Option.map_map, hnext, List.findIdx?_cons]
    cases test with
    | none =>
      cases hv
      refine ⟨?_, rfl⟩
      rw [chosen, hchosen, Option.any_none, if_neg Bool.false_ne_true, Option.map_map, hnext]
    | some test =>
      obtain ⟨w, hw, rfl⟩ := Option.map_eq_some_iff.mp hv
      refine ⟨?_, rfl⟩
      rw [chosen, evaluate_of_toOption hw, pure_bind, X.same_const, hchosen, Option.any_some]
      split
      · rfl
      · rw [Option.map_map, hnext]

theorem stmt_switch {start : Option Nat} (labels : List String)
    (X : Execution c.knowledge σ V) (hvalue : (e.evaluate c.knowledge).toOption = some value)
    (hstart : c.selectedCase? value cases = some start) : X.stmt labels (.switch loc e cases)
      = switched ((start.map (X.fromClause cases)).getD skip) := by
  obtain ⟨values, hvalues, heq⟩ := Option.bind_eq_some_iff.mp hstart
  cases heq
  obtain ⟨hchosen, hdefault⟩ := chosen_and_default (X := X) hvalues value
  show evaluated (X.eval e) (fun v => evaluated (X.chosen v (X.clauses cases)) fun a =>
    switched ((a.or (fromDefault (X.clauses cases))).getD skip)) = _
  rw [evaluate_of_toOption hvalue, evaluated_pure, hchosen, evaluated_pure, hdefault,
    ← Option.map_or, Option.orElse_eq_or]

/-! ## Taking statements -/

open Compressor

variable {t t' : Taking} {start : Option Nat} {ss : List Stmt}

theorem list_hoisted (hoisted : List Stmt) (s : Stmt) :
    X.list (hoisted ++ s.hoisted strict false) = X.list hoisted := by
  rw [list_append, list_of_plain (plain_hoisted strict false s), seq_skip]

theorem foldlM_idle (h : t.taking = false) (hs : ss.foldlM (Taking.step strict) t = some t') :
    t'.taken = t.taken ∧ t'.taking = false ∧ t'.done = t.done ∧
      X.list t'.hoisted = X.list t.hoisted := by
  induction ss generalizing t with
  | nil =>
    cases hs
    exact ⟨rfl, h, rfl, rfl⟩
  | cons s ss ih =>
    obtain ⟨t₁, hstep, hs⟩ := Option.bind_eq_some_iff.mp hs
    unfold Taking.step at hstep
    rw [if_pos (by rw [h]; rfl)] at hstep
    cases hstep
    obtain ⟨htaken, htaking, hdone, hlist⟩ :=
      ih (t := { t with hoisted := t.hoisted ++ s.hoisted strict false }) h hs
    exact ⟨htaken, htaking, hdone, hlist.trans (list_hoisted _ s)⟩

/-- Clauses before the chosen one are only hoisted from. -/
theorem cases_idle (h : t.taking = false)
    (hstart : t.done = true ∨ ∀ j, start = some (i + j) → cases.length ≤ j)
    (hs : Taking.cases strict start i t cases = some t') :
    t'.taken = t.taken ∧ X.list t'.hoisted = X.list t.hoisted := by
  induction cases generalizing i t with
  | nil =>
    cases hs
    exact ⟨rfl, rfl⟩
  | cons clause cases ih =>
    -- no clause of these starts the taking: the chosen one is not among them, or it is over
    have hoff : (start == some i && !t.done) = false := by
      rcases hstart with hdone | hstart
      · rw [hdone, Bool.not_true, Bool.and_false]
      · rw [Bool.and_eq_false_iff, beq_eq_false_iff_ne]
        exact .inl fun heq => absurd (hstart 0 heq) (by simp)
    rw [Taking.cases, if_neg (by simp [hoff])] at hs
    obtain ⟨t₁, hbody, hrest⟩ := Option.bind_eq_some_iff.mp hs
    obtain ⟨htaken, htaking, hdone, hlist⟩ := foldlM_idle (X := X) h hbody
    refine ((ih htaking ?_ hrest).imp (·.trans htaken) (·.trans hlist))
    rw [hdone]
    refine hstart.imp_right fun hstart j hj => ?_
    have := hstart (j + 1) (by rw [hj, Nat.add_right_comm, Nat.add_assoc])
    simpa using this

theorem foldlM_taking (h : t.taking = true) (hdone : t.done = false)
    (hs : ss.foldlM (Taking.step strict) t = some t') : X.list t'.hoisted = X.list t.hoisted ∧
      ∃ ts, t'.taken = t.taken ++ ts ∧ (X.list ts).Stays ∧
        (t'.taking = true ∧ t'.done = false ∧ X.list ss = X.list ts ∨
          t'.taking = false ∧ t'.done = true ∧
            ∀ b, seq (X.list ss) b = seq (X.list ts) (ends (.break none))) := by
  induction ss generalizing t with
  | nil =>
    cases hs
    exact ⟨rfl, [], by simp, stays_list [] rfl, .inl ⟨h, hdone, rfl⟩⟩
  | cons s ss ih =>
    obtain ⟨t₁, hstep, hs⟩ := Option.bind_eq_some_iff.mp hs
    unfold Taking.step at hstep
    rw [if_neg (by simp [h])] at hstep
    split at hstep
    · -- a `break`: the rest of the clause is not taken, and would not run
      cases hstep
      obtain ⟨htaken, htaking, hdone, hlist⟩ := foldlM_idle (X := X) rfl hs
      refine ⟨hlist, [], by simpa using htaken, stays_list [] rfl,
        .inr ⟨htaking, hdone, fun b => ?_⟩⟩
      show seq (seq (ends (.break none)) (X.list ss)) b = seq skip (ends (.break none))
      rw [skip_seq, Behaviour.seq_assoc]
      exact ends_seq (c := .break none) nofun _
    · split at hstep
      · cases hstep
      · next hleaves =>
        cases hstep
        obtain ⟨hlist, ts, htaken, hstays, hend⟩ :=
          ih (t := { t with taken := t.taken ++ [s] }) h hdone hs
        have hs := stays_stmt (X := X) [] s (Bool.eq_false_iff.mpr hleaves)
        refine ⟨hlist, s :: ts, by simpa using htaken, hs.seq hstays, ?_⟩
        refine hend.imp (fun h => ⟨h.1, h.2.1, ?_⟩) fun h => ⟨h.1, h.2.1, fun b => ?_⟩
        · rw [list_cons, list_cons, h.2.2]
        · rw [list_cons, list_cons, Behaviour.seq_assoc, Behaviour.seq_assoc, h.2.2]

theorem cases_taking (h : t.taking = true) (hdone : t.done = false)
    (hs : Taking.cases strict start i t cases = some t') : X.list t'.hoisted = X.list t.hoisted ∧
      ∃ ts, t'.taken = t.taken ++ ts ∧ switched (fallThrough (X.clauses cases)) = X.list ts := by
  induction cases generalizing i t with
  | nil =>
    cases hs
    exact ⟨rfl, [], by simp, switched_skip⟩
  | cons clause cases ih =>
    obtain ⟨loc, test, body⟩ := clause
    have hsame : (if start == some i && !t.done then { t with taking := true } else t) = t := by
      split
      · rw [← h]
      · rfl
    rw [Taking.cases, hsame] at hs
    obtain ⟨t₁, hbody, hrest⟩ := Option.bind_eq_some_iff.mp hs
    obtain ⟨hlist, ts, htaken, hstays, ⟨htaking, hdone, heq⟩ | ⟨htaking, hdone, heq⟩⟩ :=
      foldlM_taking (X := X) h hdone hbody
    · obtain ⟨hlist', ts', htaken', heq'⟩ := ih htaking hdone hrest
      refine ⟨hlist'.trans hlist, ts ++ ts', by rw [htaken', htaken, List.append_assoc], ?_⟩
      rw [clauses_cons, fallThrough, heq, switched_seq hstays, heq', list_append]
    · obtain ⟨htaken', hlist'⟩ := cases_idle (X := X) htaking (.inl hdone) hrest
      refine ⟨hlist'.trans hlist, ts, htaken'.trans htaken, ?_⟩
      rw [clauses_cons, fallThrough, heq, switched_seq hstays, switched_break, seq_skip]

/-- From the chosen clause on, the clauses taken do what the switch does. -/
theorem cases_from {j : Nat} (h : t.taking = false) (hdone : t.done = false)
    (hs : Taking.cases strict (some (i + j)) i t cases = some t') :
    X.list t'.hoisted = X.list t.hoisted ∧
      ∃ ts, t'.taken = t.taken ++ ts ∧ switched (X.fromClause cases j) = X.list ts := by
  induction cases generalizing i j t with
  | nil =>
    cases hs
    refine ⟨rfl, [], by simp, ?_⟩
    rw [fromClause, show X.clauses [] = [] from rfl, List.drop_nil]
    exact switched_skip
  | cons clause cases ih =>
    obtain ⟨loc, test, body⟩ := clause
    cases j with
    | zero =>
      rw [Taking.cases, if_pos (by simp [hdone])] at hs
      have hagain : Taking.cases strict (some i) i { t with taking := true }
          (⟨loc, test, body⟩ :: cases) = some t' := by
        rw [Taking.cases, ite_self]
        exact hs
      exact cases_taking (t := { t with taking := true }) rfl hdone hagain
    | succ j =>
      rw [Taking.cases, if_neg (by simp)] at hs
      obtain ⟨t₁, hbody, hrest⟩ := Option.bind_eq_some_iff.mp hs
      obtain ⟨htaken, htaking, hdone', hlist⟩ := foldlM_idle (X := X) h hbody
      rw [show i + (j + 1) = i + 1 + j by omega] at hrest
      obtain ⟨hlist', ts, htaken', heq⟩ := ih htaking (hdone'.trans hdone) hrest
      exact ⟨hlist'.trans hlist, ts, by rw [htaken', htaken], heq⟩

/-- What a `switch` is replaced by ends as the `switch` does, in the same state. -/
theorem list_pruneSwitch?_iff (X : Execution c.knowledge σ V)
    (h : (c.pruneSwitch? strict ⟨loc, e, cases⟩).1 = some ss) (labels : List String) (s s' : σ)
    (o : Completion V) : X.list ss s o s' ↔ X.stmt labels (.switch loc e cases) s o s' := by
  change c.takenClauses? strict ⟨loc, e, cases⟩ = some ss at h
  unfold takenClauses? at h
  simp only [bind, Option.bind_eq_some_iff] at h
  obtain ⟨value, hvalue, start, hstart, t, ht, heq⟩ := h
  cases heq
  have hlist : X.list (if t.taken.any (·.isLexical) then [.block ⟨loc, t.taken⟩] else t.taken)
      = X.list t.taken := by
    split
    · exact list_singleton _
    · rfl
  have htaken : X.list t.hoisted = skip ∧
      switched ((start.map (X.fromClause cases)).getD skip) = X.list t.taken := by
    cases start with
    | none =>
      obtain ⟨htaken, hhoisted⟩ := cases_idle (X := X) rfl (.inr fun _ h => by cases h) ht
      rw [hhoisted, htaken]
      exact ⟨rfl, switched_skip⟩
    | some j =>
      rw [← Nat.zero_add j] at ht
      obtain ⟨hhoisted, ts, htaken, heq⟩ := cases_from (X := X) rfl rfl ht
      rw [hhoisted, htaken]
      exact ⟨rfl, heq⟩
  rw [list_append, hlist, htaken.1, skip_seq, stmt_switch labels X hvalue hstart, htaken.2]

/-- Every expression without a known value adds one to the state. -/
def counting (k : Knowledge) : Execution k Nat Value where
  eval e :=
    match e.evaluate k with
    | .ok v => pure v
    | .error _ => do
      modify (· + 1)
      return .undefined
  const v := v
  undefined := .undefined
  truthy := Value.toBool
  same := Value.strictEquals
  assign _ _ := pure ()
  enter _ := return .undefined
  next _ _ := return false
  leave _ _ _ := pure ()
  other _ := pure ()
  eval_const e v h := by rw [h]
  same_const _ _ := rfl

def clausesToB : List SwitchCase :=
  let f : Stmt := .expr .nowhere (.ofName "f" .nowhere)
  let test (s : String) : Option Expr := some (.ofString s .nowhere)
  [⟨.nowhere, test "a", [f]⟩, ⟨.nowhere, none, [f]⟩,
    ⟨.nowhere, test "b", [.block ⟨.nowhere, [f]⟩, .break .nowhere none]⟩, ⟨.nowhere, test "c", [f]⟩]

/-- Of `switch ("b")` with these clauses one block stays. -/
theorem list_pruneSwitch?_clausesToB :
    let c : Compressor := ⟨{}, {}, false, false, fun _ => ""⟩
    let b : Expr := .ofString "b" .nowhere
    ∃ ss, (c.pruneSwitch? false ⟨.nowhere, b, clausesToB⟩).1 = some ss ∧ ss.length = 1 ∧
      ∀ s o s', (counting c.knowledge).list ss s o s' ↔
        (counting c.knowledge).stmt [] (.switch .nowhere b clausesToB) s o s' :=
  ⟨_, rfl, rfl, fun s o s' => list_pruneSwitch?_iff (counting _) rfl [] s s' o⟩

end Execution

end Laconic
