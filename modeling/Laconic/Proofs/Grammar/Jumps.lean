import Laconic.Proofs.Grammar.Targeted

/-!
# What a text is read as

Every jump is checked where it is read, against the loops, `switch` statements and labels
around it.  So whatever a rule of the grammar reads, each jump in it has a target in the
surroundings of that rule.  Imports and exports are read by the rules for outermost statements
only, and methods without names.  A rule is a function of the rules one level below it, and the
property goes up level by level (`Grammar.Targeted.step`).
-/

namespace Laconic

open Parse

variable {v : Vocabulary}

variable {options : ParseOptions}

namespace Parse

variable {t : Targets} {g : Grammar} {α : Type}

section Rules

variable (hg : g.Targeted v) {s s' : ParserState}
variable {isAwait : Bool} {kind : VarKind} {start : Position}

include hg

/-! ## Statements -/

theorem yields_parenExpression : Yields t (parenExpression g) v.expr :=
  .skip fun _ => (yields_innerExpression hg).bind fun _ he => .skip fun _ => .pure he

theorem yields_varDecl {noIn : Bool} : Yields t (varDecl g kind noIn) v.varDecl := by
  refine .skip₂ fun _ _ => ?_
  refine (Yields.reversed (R := fun d : Declarator =>
    v.pat d.target ∧ v.optExpr d.init) fun acc hacc => ?_).bind fun ds hds =>
      .skip fun _ => .pure (Vocabulary.declarators_iff.mpr hds)
  refine .skip fun _ => (yields_bindingTarget hg).bind fun target htarget => .check fun _ => ?_
  refine .skip fun _ => .either (P := v.optExpr)
    (fun _ => (hg.assign t noIn).map fun _ he => he) (fun _ => .pure trivial) fun init hinit => ?_
  have hmore : ∀ loc, ∀ d ∈ (⟨loc, target, init⟩ :: acc : List Declarator),
      v.pat d.target ∧ v.optExpr d.init :=
    fun _ => List.forall_mem_cons.mpr ⟨⟨htarget, hinit⟩, hacc⟩
  exact .skip₂ fun _ _ => .ite (fun _ => .pure (hmore _)) fun _ => .pure (hmore _)

omit hg in
instance {d : VarDecl} : Keeps (checkInits d) := by
  have hone : ∀ x, Keeps (match missingInit? d.kind x with
      | some fault => fail fault x.loc.start
      | none => pure ()) := fun x => by split <;> infer_instance
  unfold checkInits
  induction d.declarators with
  | nil => exact inferInstanceAs (Keeps (pure ()))
  | cons x rest ih => exact @Keeps.bind _ _ _ _ (hone x) fun _ => ih

theorem yields_varStatement : Yields t (varStatement g kind) (v.stmt t) := by
  refine .skip fun _ => (yields_varDecl hg).bind fun d hd => ?_
  refine .skip₃ fun _ _ _ => .pure ?_
  obtain ⟨loc, kind, ds⟩ := d
  exact hd

theorem yields_loopBody : Yields t (loopBody g) (v.stmt t.inLoop) :=
  .inContext (fun c hc => hc ▸ c.targets_loop) (hg.statement t.inLoop)

theorem yields_forRest {init : ForInit} (hinit : v.forInit init) :
    Yields t (forRest g start init) fun s => v.stmt t s ∧ s.isLoop = true := by
  refine .skip fun _ => .either (P := v.optExpr) (fun _ => .pure trivial)
    (fun _ => (yields_innerExpression hg).map fun _ he => he) fun test htest => ?_
  refine .skip₂ fun _ _ => .either (P := v.optExpr)
    (fun _ => .pure trivial) (fun _ => (yields_innerExpression hg).map fun _ he => he)
    fun update hupdate => ?_
  exact .skip fun _ => (yields_loopBody hg).bind fun _ hbody =>
    .skip fun _ => .pure ⟨⟨hinit, htest, hupdate, hbody⟩, rfl⟩

theorem yields_forOverRest {target : ForTarget} (htarget : v.forTarget target) :
    Yields t (forOverRest g start isAwait target) fun s => v.stmt t s ∧ s.isLoop = true := by
  refine .skip fun _ => .check fun _ => .either (fun _ => hg.assign t false)
    (fun _ => yields_innerExpression hg) fun object hobject => ?_
  refine .skip fun _ => (yields_loopBody hg).bind fun _ hbody => .skip fun _ => .pure ?_
  split <;> exact ⟨⟨htarget, hobject, hbody⟩, rfl⟩

omit hg in
instance : Keeps isOver := by unfold isOver; infer_instance

omit hg in
instance : Keeps declKind? := .bind fun _ => by split <;> infer_instance

omit hg in
instance {kind : VarKind} {d : Declarator} : Keeps (legacyInit kind d) := by
  unfold legacyInit; infer_instance

theorem yields_forDecl :
    Yields t (forDecl g start isAwait kind) fun s => v.stmt t s ∧ s.isLoop = true := by
  refine (yields_varDecl hg).bind fun d hd => ?_
  have hplain : Yields t (do
      if isAwait then unexpected
      checkInits d
      expectPunct .semicolon
      forRest g start (.decl d)) fun s => v.stmt t s ∧ s.isLoop = true :=
    .check fun _ => .skip₂ fun _ _ => yields_forRest hg hd
  dsimp only
  split
  · refine .branch ?_ hplain
    exact .skip fun _ => .check fun _ => yields_forOverRest hg hd
  · exact hplain

theorem yields_forExpr :
    Yields t (forExpr g start isAwait) fun s => v.stmt t s ∧ s.isLoop = true := by
  refine .skip fun _ => (yields_commaSeparated (hg.assign t true)).bind fun e he => ?_
  refine .branch ?_ ?_
  · refine .skip fun _ => ?_
    split
    · next heq => exact yields_forOverRest hg (pat_of_toPattern e he heq)
    · exact .fail
  · exact .check fun _ => .skip fun _ => yields_forRest hg he

theorem yields_forStatement :
    Yields t (forStatement g) fun s => v.stmt t s ∧ s.isLoop = true := by
  refine .skip₃ fun _ _ _ => ?_
  refine .skipEither fun _ => .skip₂ fun _ _ => ?_
  refine .ite (fun _ => .check fun _ => yields_forRest hg trivial) fun _ => ?_
  refine .skip fun kind => ?_
  cases kind with
  | some kind => exact yields_forDecl hg
  | none => exact yields_forExpr hg

theorem yields_whileStatement :
    Yields t (whileStatement g) fun s => v.stmt t s ∧ s.isLoop = true :=
  .skip₂ fun _ _ => (yields_parenExpression hg).bind
    fun _ htest => (yields_loopBody hg).bind fun _ hbody => .skip fun _ =>
      .pure ⟨⟨htest, hbody⟩, rfl⟩

theorem yields_doWhileStatement :
    Yields t (doWhileStatement g) fun s => v.stmt t s ∧ s.isLoop = true :=
  .skip₂ fun _ _ => (yields_loopBody hg).bind
    fun _ hbody => .skip fun _ => (yields_parenExpression hg).bind fun _ htest =>
      .skip₂ fun _ _ => .pure ⟨⟨htest, hbody⟩, rfl⟩

/-! ## Jumps -/

omit hg in
instance : Keeps jumpLabel := by unfold jumpLabel; infer_instance

omit hg in
theorem yields_continueStatement : Yields t continueStatement (v.stmt t) := by
  refine .skip₃ fun start _ label => ?_
  have hrest : t.MayContinue label → Yields t (do
      semicolon
      return .continue (← spanFrom start) label) (v.stmt t) :=
    fun h => .skip₂ fun _ _ => .pure fun _ => h
  refine Yields.get.bind fun s hs => ?_
  subst hs
  cases label with
  | none =>
    refine .ite (fun _ => .failed) fun h => hrest ?_
    show (s.context.loops != 0) = true
    simpa using h
  | some l =>
    dsimp only
    split
    · next x hx =>
      refine .ite (fun _ => .failed) fun hloop => hrest ?_
      show (s.context.labels.find? _).map _ = some true
      simpa [hx] using hloop
    · exact .failed

omit hg in
theorem yields_breakStatement : Yields t breakStatement (v.stmt t) := by
  refine .skip₃ fun start _ label => ?_
  have hrest : t.MayBreak label → Yields t (do
      semicolon
      return .break (← spanFrom start) label) (v.stmt t) :=
    fun h => .skip₂ fun _ _ => .pure fun _ => h
  refine Yields.get.bind fun s hs => ?_
  subst hs
  cases label with
  | none =>
    refine .ite (fun _ => .failed) fun h => hrest ?_
    show (s.context.loops != 0) = true ∨ (s.context.switches != 0) = true
    by_cases hloops : s.context.loops = 0
    · simpa [hloops] using h
    · simp [hloops]
  | some l =>
    refine .ite (fun _ => .failed) fun h => hrest ?_
    obtain ⟨x, hx, hname⟩ : ∃ x ∈ s.context.labels, x.name = l.name := by simpa using h
    obtain ⟨y, hy⟩ : ∃ y, s.context.labels.find? (·.name == l.name) = some y :=
      Option.isSome_iff_exists.mp (List.find?_isSome.mpr ⟨x, hx, beq_iff_eq.mpr hname⟩)
    exact ⟨y.isLoop, congrArg (Option.map Label.isLoop) hy⟩

theorem yields_returnStatement : Yields t (returnStatement g) (v.stmt t) := by
  refine .skip₃ fun _ _ _ => .check fun _ => ?_
  refine .skip₃ fun _ _ _ => .skip₂ fun _ _ => ?_
  exact .either (P := v.optExpr) (fun _ => .pure trivial)
    (fun _ => (yields_innerExpression hg).map fun _ he => he) fun _ he => .skip₂ fun _ _ => .pure he

theorem yields_throwStatement : Yields t (throwStatement g) (v.stmt t) := by
  refine .skip₃ fun _ _ _ => ?_
  refine .ite (fun _ => .skip fun _ => .failed) fun _ => ?_
  exact (yields_innerExpression hg).bind fun _ he => .skip₂ fun _ _ => .pure he

/-! ## Other statements -/

theorem yields_ifStatement : Yields t (ifStatement g) (v.stmt t) := by
  refine .skip₂ fun _ _ => (yields_parenExpression hg).bind
    fun _ htest => (hg.statement t).bind fun _ hc => .skip fun _ => ?_
  exact .either (P := v.optStmt t) (fun _ => (hg.statement t).map fun _ ha => ha)
    (fun _ => .pure trivial) fun _ ha => .skip fun _ => .pure ⟨htest, hc, ha⟩

theorem yields_withStatement : Yields t (withStatement g) (v.stmt t) :=
  .skip₂ fun _ _ => .check fun _ => .skip fun _ => (yields_parenExpression hg).bind fun _ he =>
      (hg.statement t).bind fun _ hbody => .skip fun _ => .pure ⟨he, hbody⟩

theorem yields_caseTest {seen : Bool} : Yields t (caseTest g seen) v.optExpr := by
  refine .skip fun k => ?_
  split
  · exact .skip fun _ => (yields_innerExpression hg).map fun _ he => he
  · refine .ite (fun _ => .skip fun _ => .failed) fun _ => ?_
    exact .skip fun _ => .pure trivial
  · exact .unexpected

omit hg in
instance : Keeps caseGoesOn := .bind fun _ => by split <;> infer_instance

theorem yields_switchCases : Yields t (switchCases g) (v.switchCases t) := by
  refine (Yields.repeatUntil (I := fun acc : List SwitchCase =>
      ∀ x ∈ acc, v.optExpr x.test ∧ v.stmts t x.body)
    (P := fun acc : List SwitchCase =>
      ∀ x ∈ acc, v.optExpr x.test ∧ v.stmts t x.body) (fun acc hacc => ?_)
    (List.forall_mem_nil _)).mono fun _ => Vocabulary.switchCases_iff.mpr
  refine .branch (.pure ?_) ?_
  · exact fun x hx => hacc x (List.mem_reverse.mp hx)
  refine .skip fun _ => (yields_caseTest hg).bind fun test htest => .skip fun _ => ?_
  refine (Yields.manyWhile (hg.item t)).bind fun body hbody => .skip fun _ => .pure ?_
  exact List.forall_mem_cons.mpr ⟨⟨htest, Vocabulary.stmts_iff.mpr hbody⟩, hacc⟩

theorem yields_switchStatement : Yields t (switchStatement g) (v.stmt t) := by
  refine .skip₂ fun _ _ => (yields_parenExpression hg).bind fun _ he => .skip fun _ => ?_
  have hcases : Yields t.inSwitch (do
      let cases ← switchCases g
      discard bump
      return cases) (v.switchCases t.inSwitch) :=
    (yields_switchCases hg).bind fun _ h => .skip fun _ => .pure h
  exact (Yields.inContext (fun c hc => hc ▸ c.targets_switch) hcases).bind fun _ hcases =>
    .skip fun _ => .pure ⟨he, hcases⟩

theorem yields_handler : Yields t (handler g) (v.handler t) := by
  refine .branch (.pure trivial) ?_
  refine .skip₃ fun start _ _ => ?_
  have hrest : ∀ param, v.optParam param → Yields t (do
      let body ← block g
      return some ⟨← spanFrom start, param, body⟩) (v.handler t) :=
    fun _ hparam => (yields_block hg).bind fun _ hb => .skip fun _ => .pure ⟨hparam, hb⟩
  refine .ite (fun _ => ?_) fun _ => .bind (P := v.optParam) (.pure trivial) hrest
  exact (hg.bindingTarget t).bind fun _ hp => .skip fun _ =>
    .bind (P := v.optParam) (.pure hp) hrest

theorem yields_tryStatement : Yields t (tryStatement g) (v.stmt t) := by
  refine .skip₂ fun _ _ => (yields_block hg).bind
    fun _ hb => (yields_handler hg).bind fun _ hh => .skip fun _ => ?_
  refine .either (P := v.optBlock t) (fun _ => (yields_block hg).map fun _ h => h)
    (fun _ => .pure trivial) fun _ hf => ?_
  exact .ite (fun _ => .skip fun _ => .failed) fun _ => .skip fun _ => .pure ⟨hb, hh, hf⟩

omit hg in
theorem startsLoop_eq_ok {b : Bool} (h : startsLoop s = .ok b s') :
    s' = s ∧ (b = true → s.token.kind.StartsLoop) := by
  obtain ⟨k, s₁, hkind, h⟩ := bind_eq_ok h
  have hk : s.token.kind = k ∧ s₁ = s := by
    cases hkind
    exact ⟨rfl, rfl⟩
  rw [hk.1]
  split at h
  · cases h
    exact ⟨hk.2, fun _ => .inl rfl⟩
  · cases h
    exact ⟨hk.2, fun _ => .inr (.inl rfl)⟩
  · cases h
    exact ⟨hk.2, fun _ => .inr (.inr rfl)⟩
  · cases h
    exact ⟨hk.2, nofun⟩

theorem yields_labeledStatement : Yields t (labeledStatement g) (v.stmt t) := by
  refine .skip₃ fun start label _ => ?_
  refine .skip fun _ => .check fun _ => ?_
  intro s a s' hs hrun
  obtain ⟨isLoop, s₁, hstarts, hrun⟩ := bind_eq_ok hrun
  obtain ⟨hsame, hstarts⟩ := startsLoop_eq_ok hstarts
  obtain ⟨body, s₂, hbody, hrun⟩ := bind_eq_ok hrun
  rw [hsame] at hbody
  have hloop : isLoop = true → body.isLoop = true := by
    intro hisLoop
    obtain ⟨s₃, hstatement, _⟩ := inContext_eq_ok hbody
    refine hg.loop _ _ _ ?_ hstatement
    exact hstarts hisLoop
  obtain ⟨hs₂, hstmt⟩ := Yields.inContext (fun c hc => hc ▸ c.targets_label label.name isLoop)
    (hg.statement (t.labeled label.name isLoop)) _ _ _ hs hbody
  have hlabeled : v.stmt (t.labeled label.name body.isLoop) body := by
    cases isLoop with
    | true => rwa [hloop rfl]
    | false =>
      cases body.isLoop with
      | true => exact Vocabulary.stmt_mono (.labeled_loop t label.name false) body hstmt
      | false => exact hstmt
  have hrest : Yields t (do return .labeled (← spanFrom start) label body) (v.stmt t) :=
    .skip fun _ => .pure hlabeled
  exact hrest _ _ _ hs₂ hrun

theorem yields_expressionStatement : Yields t (expressionStatement g) (v.stmt t) :=
  .skip fun _ => (yields_expression hg).bind fun _ he => .skip₂ fun _ _ => .pure he

theorem yields_labeledOrExpression : Yields t (labeledOrExpression g) (v.stmt t) := by
  refine .branch ?_ (yields_expressionStatement hg)
  exact .branch (yields_labeledStatement hg) (yields_expressionStatement hg)

theorem yields_statement : Yields t (statement g) (v.stmt t) := by
  have hloop : ∀ {m : Parse Stmt}, Yields t m (fun s => v.stmt t s ∧ s.isLoop = true) →
      Yields t m (v.stmt t) := fun h => h.mono fun _ => And.left
  refine .skip₂ fun _ k => ?_
  split
  · exact (yields_block hg).bind fun _ hb => .pure hb
  · exact .skip₂ fun _ _ => .pure trivial
  · split
    · exact yields_varStatement hg
    · exact yields_ifStatement hg
    · exact hloop (yields_forStatement hg)
    · exact hloop (yields_whileStatement hg)
    · exact hloop (yields_doWhileStatement hg)
    · exact yields_continueStatement
    · exact yields_breakStatement
    · exact yields_returnStatement hg
    · exact yields_withStatement hg
    · exact yields_switchStatement hg
    · exact yields_throwStatement hg
    · exact yields_tryStatement hg
    · exact .skip₃ fun _ _ _ => .pure trivial
    · exact .skip fun _ => .check fun _ => (yields_functionDecl hg).bind fun _ hf => .pure hf
    · exact .unexpected
    · exact yields_labeledOrExpression hg
  · exact yields_labeledOrExpression hg

theorem isLoop_of_statement {a : Stmt} (hstarts : s.token.kind.StartsLoop)
    (h : statement g s = .ok a s') : a.isLoop = true := by
  obtain ⟨start, s₁, hstart, h⟩ := bind_eq_ok h
  cases hstart
  obtain ⟨k, s₁, hkind, h⟩ := bind_eq_ok h
  cases hkind
  rcases hstarts with heq | heq | heq <;> rw [heq] at h
  · exact (yields_forStatement hg _ _ _ rfl h).2.2
  · exact (yields_whileStatement hg _ _ _ rfl h).2.2
  · exact (yields_doWhileStatement hg _ _ _ rfl h).2.2

omit hg in
instance : Keeps importIsExpr := by unfold importIsExpr; infer_instance

theorem yields_item : Yields t (item g) (v.stmt t) := by
  have hfunction : ∀ isAsync, Yields t (do return .function (← functionDecl g isAsync false))
      (v.stmt t) :=
    fun _ => (yields_functionDecl hg).bind fun _ hf => .pure hf
  refine .skip fun k => ?_
  split
  · split
    · exact hfunction false
    · exact .branch (hfunction true) (yields_statement hg)
    · exact .skip fun _ => (yields_classDef hg).bind fun _ hc => .pure hc
    · exact yields_varStatement hg
    · exact .branch (yields_varStatement hg) (yields_statement hg)
    · exact .branch (yields_statement hg) (.skip fun _ => .fail)
    · exact .branch (yields_statement hg) (.skip fun _ => .fail)
    · exact yields_statement hg
  · exact yields_statement hg

/-! ## Programs -/

omit hg in
instance : Keeps moduleName := by unfold moduleName; infer_instance

omit hg in
instance : Keeps importSpecifier := .bind fun _ => .bind fun _ => by
  split
  · infer_instance
  · split <;> infer_instance

omit hg in
instance {item : Parse α} [Keeps item] : Keeps (bracedNames item) := by
  unfold bracedNames; infer_instance

omit hg in
instance : Keeps importList := by unfold importList; infer_instance

omit hg in
instance : Keeps importSpecifiers := by unfold importSpecifiers; infer_instance

omit hg in
theorem yields_importDecl : Yields t importDecl v.item :=
  .skip₃ fun _ _ _ => .check fun _ => .skip₃ fun _ _ _ => .pure trivial

theorem yields_exportDefault : Yields t (exportDefault g start) v.item := by
  refine .skip₂ fun _ _ => ?_
  refine .skipEither fun _ => .branch ?_ (.branch ?_ ?_)
  · exact (yields_functionDecl hg).bind fun _ hf => .skip fun _ => .pure hf
  · exact .skip fun _ => (yields_classDef hg).bind fun _ hc => .skip fun _ => .pure hc
  · exact (hg.assign t false).bind fun _ he => .skip₂ fun _ _ => .pure he

omit hg in
theorem yields_exportAll : Yields t (exportAll start) v.item :=
  .skip₂ fun _ _ => .skipEither fun _ => .skip₂ fun _ _ => .skip₂ fun _ _ => .pure trivial

omit hg in
theorem yields_exportNames : Yields t (exportNames start) v.item := by
  have hspecifier : Keeps exportSpecifier := by unfold exportSpecifier; infer_instance
  exact .skip₃ fun _ _ _ => .skipEither fun _ => .skip₂ fun _ _ => .pure trivial

omit hg in
instance : Keeps startsDeclaration := .bind fun _ => by split <;> infer_instance

theorem yields_exportDecl : Yields {} (exportDecl g) v.item := by
  refine .skip₃ fun _ _ k => ?_
  split
  · exact yields_exportDefault hg
  · exact yields_exportAll
  · exact yields_exportNames
  · exact .skip fun _ => .check fun _ => (yields_item hg).bind fun _ hs => .skip fun _ => .pure hs

theorem yields_topItem : Yields {} (topItem g) v.item := by
  have hplain : Yields {} (item g) v.item := (yields_item hg).mono fun _ => Vocabulary.item_of_stmt
  have hitem : Yields {} (do
      if ← isWord .import then
        if !(← importIsExpr) then return ← importDecl
      item g) v.item := by
    refine .branch ?_ hplain
    exact .branch yields_importDecl hplain
  refine .branch ?_ hplain
  exact .branch (yields_exportDecl hg) hitem

theorem yields_program : Yields {} (program g) fun p => ∀ s ∈ p.body, v.item s :=
  (yields_statementList (yields_topItem hg) fun _ _ => trivial).bind
    fun _ hbody => .skip fun _ => .pure hbody

end Rules

end Parse

/-! ## Levels -/

namespace Grammar

theorem targeted_exhausted (hv : ∀ f, v.function f) : exhausted.Targeted v where
  function := hv
  item _ := .skip fun _ => .fail
  statement _ := .skip fun _ => .fail
  loop _ _ _ _ h := nomatch h
  assign _ _ := .skip fun _ => .fail
  binary _ _ _ := .skip fun _ => .fail
  unary _ := .skip fun _ => .fail
  leftHand _ := .skip fun _ => .fail
  newExpr _ _ := .skip fun _ => .fail
  bindingTarget _ := .skip fun _ => .fail

variable {g : Grammar}

theorem Targeted.step (hg : g.Targeted v) : g.step.Targeted v where
  function := hg.function
  item _ := yields_item hg
  statement _ := yields_statement hg
  loop _ _ _ hstarts h := isLoop_of_statement hg hstarts h
  assign _ _ := yields_assign hg
  binary _ _ _ := yields_binary hg
  unary _ := yields_unary hg
  leftHand _ := yields_leftHand hg
  newExpr _ _ := yields_newExpr hg
  bindingTarget _ := yields_bindingTarget hg

theorem targeted_levels (hv : ∀ f, v.function f) (n : Nat) : (levels n).Targeted v := by
  induction n with
  | zero => exact targeted_exhausted hv
  | succ n ih => exact ih.step

end Grammar

theorem ParserState.targets_initial {scanner : Scanner} {s : ParserState}
    (h : ParserState.initial scanner options = .ok s) : s.context.targets = {} := by
  unfold ParserState.initial at h
  split at h
  · cases h
    rfl
  · cases h

/-- The outermost statements of a parsed program keep to every vocabulary that accepts all
functions. -/
theorem items_of_parse {text : String} {p : Program} (h : parse options text = .ok p)
    (hv : ∀ f, v.function f) : ∀ s ∈ p.body, v.item s := by
  unfold parse parseFile parseWith at h
  dsimp only at h
  split at h
  · cases h
  · obtain ⟨s, hs, h⟩ := Except.bind_eq_ok h
    split at h
    · next hprogram =>
      cases h
      exact (yields_program (Grammar.targeted_levels hv _) _ _ _ (ParserState.targets_initial hs)
        hprogram).2
    · cases h

/-! ## Parsed programs -/

/-- The vocabulary that says of jumps that they have targets, and nothing else. -/
@[reducible] def Vocabulary.jumping : Vocabulary where
  function _ := True
  unnamed := False
  jumps := True
  exports := True

/-- Every jump of a program has a target around it in the same function. -/
def Program.JumpsHaveTargets (p : Program) : Prop := Vocabulary.jumping.stmts {} p.body

section Parsed

variable {text : String} {p : Program}

/-- The jumps of a parsed program have targets. -/
theorem jumpsHaveTargets_of_parse (h : parse options text = .ok p) : p.JumpsHaveTargets :=
  Vocabulary.stmts_iff.mpr fun s hs =>
    Vocabulary.stmt_of_item trivial (items_of_parse h (fun _ => trivial) s hs)

end Parsed

/-- Some text is parsed to the program. -/
def Program.Parsed (p : Program) : Prop :=
  ∃ (options : ParseOptions) (text : String), parse options text = .ok p

namespace Program.Parsed

variable {p : Program}

/-- The functions of methods have no names of their own in a parsed program. -/
theorem methodsUnnamed (h : p.Parsed) : p.methodsUnnamed = true := by
  obtain ⟨options, text, h⟩ := h
  exact methodsUnnamed_iff.mpr (Vocabulary.stmts_iff.mpr fun s hs =>
    Vocabulary.stmt_of_item trivial (items_of_parse h (fun _ => trivial) s hs))

/-- A parsed program exports at the outermost level only. -/
theorem exportsOutermost (h : p.Parsed) (ie8 : Bool) : p.exportsOutermost ie8 = true := by
  obtain ⟨options, text, h⟩ := h
  exact exportsOutermost_of_items (v := ⟨fun _ => True, False, False, False⟩) id
    (items_of_parse h fun _ => trivial) ie8

end Program.Parsed

end Laconic
