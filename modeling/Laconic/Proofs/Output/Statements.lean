import Laconic.Proofs.Output.Derived

/-!
# Statements are read back

An `else` belongs to the nearest `if` before it.  So the first branch of an `if` with an
`else` stands in braces if it ends in an `if` without one, which may be reached through any
number of loops, labels and second branches.  `Stmt.ConveyedBy` says of a statement that its
layout puts certain tokens before those that come next, and that these are read as the
statement, unless it dangles and an `else` comes next.
-/

namespace Laconic

open Parse Written Layout

variable {t : Targets} {n : Nat} {e : Expr} {ws ts rest : List Written} {l : Lexeme}
  {ls ls₁ ls' : List Lexeme}

/-! ## Neighbouring tokens -/

namespace Written

/-- Tokens that meet, with no arrow among them. -/
structure Neat (ws : List Written) : Prop where
  meets : ws.IsChain Meets
  arrowless : ∀ w ∈ ws, w.lexeme ≠ .punct .arrow

namespace Neat

theorem cons {w : Written} (h : Neat ws) (hends : w.Ends) (hdigits : ¬w.IsDigits)
    (harrow : w.lexeme ≠ .punct .arrow) : Neat (w :: ws) := by
  refine ⟨List.isChain_cons.mpr ⟨fun b _ => ?_, h.meets⟩,
    List.forall_mem_cons.mpr ⟨harrow, h.arrowless⟩⟩
  exact meets_of_ends hends fun hd => absurd hd hdigits

theorem word (h : Neat ws) (w : Word) : Neat (word w :: ws) :=
  h.cons trivial (not_isDigits_of_name (Scanning.isIdentifierName_text w) rfl) nofun

theorem punct (h : Neat ws) {p : Punct} (hp : p.isSimple = true) (hclosed : p.isClosed = true) :
    Neat (punct p hp :: ws) := by
  have hall : ∀ p ∈ Punct.all, p.isClosed = true → p ≠ .arrow ∧
      ¬∀ c ∈ p.text.toList, c.isDigit = true := by
    decide
  obtain ⟨harrow, hdigits⟩ := hall p (Scanning.mem_all p) hclosed
  refine h.cons hclosed hdigits fun heq => ?_
  cases heq
  exact harrow rfl

theorem name {text : String} (h : Neat ws) (hname : isIdentifierName text = true) :
    Neat (name text hname :: ws) :=
  h.cons (ends_name hname) (not_isDigits_of_name hname rfl) (lexeme_name_ne hname)

end Neat

theorem Solid.neat (h : Solid ws) {op : Written} (hop : op.lexeme.isOperator = true)
    (hrest : Neat (op :: rest)) : Neat (ws ++ op :: rest) := by
  refine ⟨List.isChain_append.mpr ⟨h.meets, hrest.meets, ?_⟩, fun w hw => ?_⟩
  · rintro a ha _ ⟨⟩
    exact meets_isOperator (h.last a ha) hop
  · exact (List.mem_append.mp hw).elim (h.arrowless w) (hrest.arrowless w)

theorem lexeme_eq_rightBrace {w : Written} (h : w.text = ['\x7d']) :
    w.lexeme = .punct .rightBrace := by
  have hstarts : w.lexeme.starts = false := by
    by_contra hstarts
    rw [Bool.not_eq_false] at hstarts
    rcases head_cases_of_starts hstarts h with hpart | ⟨hdot, -⟩ | hmem
    · exact absurd hpart (by decide +kernel)
    · cases hdot
    · revert hmem
      decide
  obtain ⟨l, text, hspells⟩ := w
  cases hspells with
  | word w =>
    have hid := (Scanning.isIdStart_of_isIdentifierName (Scanning.isIdentifierName_text w) h).1
    exact absurd hid (by decide +kernel)
  | @punct p hp => exact congrArg Lexeme.punct (Scanning.text_injective (String.toList_inj.mp h))
  | _ => cases hstarts

theorem due_cases (rest : List Written) :
    due true rest ++ rest = Written.punct .semicolon rfl :: rest ∨
      (due true rest = [] ∧ ∃ w ws, rest = w :: ws ∧ w.lexeme = .punct .rightBrace) := by
  unfold due
  cases rest with
  | nil => exact .inl rfl
  | cons w ws =>
    by_cases hw : w.text = ['\x7d']
    · exact .inr ⟨by simp [hw], w, ws, rfl, lexeme_eq_rightBrace hw⟩
    · exact .inl (by simp [hw])

theorem Neat.due (h : Neat rest) : Neat (due true rest ++ rest) := by
  rcases due_cases rest with heq | ⟨heq, -⟩ <;> rw [heq]
  · exact h.punct rfl rfl
  · exact h

theorem Solid.neat_due (h : Solid ws) (hrest : Neat rest) :
    Neat (ws ++ (due true rest ++ rest)) := by
  rcases due_cases rest with heq | ⟨heq, w, ws', rfl, hw⟩
  · rw [heq]
    exact h.neat rfl (hrest.punct rfl rfl)
  · rw [heq]
    exact h.neat (by rw [hw]; rfl) hrest

def NotElse (ws : List Written) : Prop := ((ws.map lexeme).headD .endOfInput).kind ≠ .word .else

end Written

/-! ## Expressions in statements -/

/-- The layout of an expression writes some tokens, which are read as the expression. -/
structure Expr.Conveyed (e : Expr) (ws : List Written) : Prop where
  solid : Solid ws
  writes : (slot Strength.sequence e (inner {} · e)).Writes ws
  reads : ∀ {t : Targets} {n : Nat} {ls : List Lexeme}, Follows Strength.sequence ls →
    (ws.map lexeme ++ ls).length < n →
    Passes t (commaSeparated (Parse.assign (Grammar.levels n) false)) (ws.map lexeme ++ ls) ls
      e.ReadsAs

theorem Derives.solid {es : List Expr} (h : Derives (.items es) ws) (he : e.IsSequenceOf es) :
    Solid ws := by
  have harranged := h.arranged
  cases es with
  | cons => exact harranged
  | nil => exact absurd rfl he.ne_nil

theorem Expr.IsOperation.exists_conveyed (he : e.IsOperation) : ∃ ws, e.Conveyed ws := by
  obtain ⟨es, ws, hes, hderives, hl⟩ := he.laid.items
  exact ⟨ws, hderives.solid hes, hl.slot_of_le (Nat.zero_le _),
    hderives.isRead.1.commaSeparated hes⟩

theorem Expr.Conveyed.passes_paren (h : e.Conveyed ws)
    (hn : (ws ++ punct .rightParen rfl :: ts).length < n) :
    Passes t (parenExpression (Grammar.levels (n + 1)))
      ((punct .leftParen rfl :: (ws ++ punct .rightParen rfl :: ts)).map lexeme) (ts.map lexeme)
      e.ReadsAs := by
  rw [List.map_cons, List.map_append, List.map_cons]
  have hclose : Follows Strength.sequence ((punct .rightParen rfl).lexeme :: ts.map lexeme) :=
    close_follows (p := .rightParen) rfl (by decide)
  exact (Passes.expectPunct rfl rfl).bind fun _ _ => (h.reads hclose (by simpa using hn)).bind
    fun e' he' => (Passes.expectPunct rfl rfl).bind fun _ _ => .pure he'

/-- An operand with accesses and calls before a semicolon or `in`, where no operator `in` may
stand. -/
theorem Parse.Chained.passes_noIn (h : Chained true e ls₁) (harrow : isArrow e = false)
    (hl : l = .punct .semicolon ∨ l = .word .in) (hn : (ls₁ ++ l :: ls).length < n) :
    Passes t (commaSeparated (assign (Grammar.levels n) true)) (ls₁ ++ l :: ls) (l :: ls)
      e.ReadsAs := by
  obtain ⟨hslash, hregexp, hop, hquestion, hassign, hcomma⟩ : isSlash l = false ∧
      l.kind ≠ .regexp ∧ InfixOp.ofKind? true l.kind = none ∧ l.kind ≠ .punct .question ∧
      assignOp? l.kind = none ∧ l.kind ≠ .punct .comma := by
    rcases hl with rfl | rfl <;> decide
  have hfollows : Follows Strength.postfixOp (l :: ls) := by
    rcases hl with rfl | rfl <;> exact ⟨_, _, rfl, by decide⟩
  have hbinary : Passes t (binary (Grammar.levels n) 0 true) (ls₁ ++ l :: ls) (l :: ls) e.ReadsAs
      false true := by
    refine Passes.start.bind fun _ _ => (h.leftHand.unary h.first hfollows hn).bind fun x hx => ?_
    rw [hx.isArrow_eq, harrow]
    exact (turns_end hregexp (by rw [hop]; nofun) hx).repeatUntil
  refine (passes_assign h.starts (List.cons_ne_nil _ _)
    (passes_conditional hbinary hquestion) harrow
    fun _ _ hx => ?_).bind fun x hx => (Passes.isPunct_ne hcomma).next (.pure hx)
  exact (passes_assignRest hslash hassign hx).loosen

/-! ## Layouts of statements -/

def headed (w : Word) (ws ts : List Written) : List Written :=
  word w :: punct .leftParen rfl :: (ws ++ punct .rightParen rfl :: ts)

theorem length_headed (w : Word) (ws ts : List Written) :
    (headed w ws ts).length = ws.length + ts.length + 3 := by
  simp [headed]
  omega

namespace Layout

variable {l l' m : Layout} {f g : List Written → List Written}

/-- A layout puts tokens before those that come next, and they are neat if those are. -/
structure Lays (l : Layout) (f : List Written → List Written) : Prop extends Puts l f where
  grows : ∀ rest, rest.length < (f rest).length
  neat : ∀ {rest}, Neat rest → Neat (f rest)

theorem Lays.append (h : l.Lays f) (h' : l'.Lays g) : (l ++ l').Lays fun rest => f (g rest) :=
  ⟨h.toPuts.append h'.toPuts, fun rest => (h'.grows rest).trans (h.grows _),
    fun hr => h.neat (h'.neat hr)⟩

theorem Lays.after (h : l.Lays f) (hm : m.Writes []) : (m ++ l).Lays f :=
  ⟨hm.toPuts.append h.toPuts, h.grows, h.neat⟩

theorem Lays.before (h : l.Lays f) (hm : m.Writes []) : (l ++ m).Lays f :=
  ⟨h.toPuts.append hm.toPuts, h.grows, h.neat⟩

theorem lays_word (w : Word) : (token w.text).Lays (word w :: ·) :=
  ⟨(writes_token rfl).toPuts, fun _ => Nat.lt_succ_self _, fun h => h.word w⟩

theorem lays_punct {p : Punct} (hp : p.isSimple = true) (hclosed : p.isClosed = true) :
    (token p.text).Lays (punct p hp :: ·) :=
  ⟨(writes_token rfl).toPuts, fun _ => Nat.lt_succ_self _, fun h => h.punct hp hclosed⟩

theorem Lays.body (h : l.Lays f) (s : Stmt) : (body {} s l).Lays f := by
  have hbody : Layout.body {} s l = space ++ l := by simp [Layout.body]
  rw [hbody]
  exact h.after writes_space

theorem writes_head (w : Word) (hl : l.Writes ws) : (head w.text l).Writes (headed w ws []) :=
  ((((writes_token (w := word w) rfl).append writes_space).append
    (writes_token (w := punct .leftParen rfl) rfl)).append hl).append
      (writes_token (w := punct .rightParen rfl) rfl)

theorem Lays.headed (h : l'.Lays f) (w : Word) (loc : Span) (hl : l.Writes ws)
    (hws : ∀ {ts}, Neat (punct .rightParen rfl :: ts) → Neat (ws ++ punct .rightParen rfl :: ts)) :
    (lead loc ++ head w.text l ++ l').Lays fun rest => headed w ws (f rest) where
  toPuts := (((writes_lead loc).append (writes_head w hl)).toPuts.append h.toPuts).congr
    fun rest => by simp [Laconic.headed]
  grows rest := by
    have := h.grows rest
    rw [length_headed]
    omega
  neat hrest := ((hws ((h.neat hrest).punct rfl rfl)).punct (p := .leftParen) rfl rfl).word w

theorem Puts.braced (h : l.Puts f) (hgrows : ∀ rest, rest.length ≤ (f rest).length)
    (hneat : ∀ {rest}, Neat rest → Neat (f rest)) (hm : m.Writes []) :
    (token "\x7b" ++ Layout.indented l ++ m ++ token "\x7d").Lays
      fun rest => punct .leftBrace rfl :: f (punct .rightBrace rfl :: rest) where
  toPuts := ((((writes_token (w := punct .leftBrace rfl) rfl).toPuts.append h.indented).append
    hm.toPuts).append (writes_token (w := punct .rightBrace rfl) rfl).toPuts)
  grows rest := Nat.lt_succ_of_le ((Nat.le_succ _).trans (hgrows (punct .rightBrace rfl :: rest)))
  neat h := (hneat (h.punct (p := .rightBrace) rfl rfl)).punct rfl rfl

end Layout

/-! ## Statements -/

/-- What a `for` loop starts with: nothing, or a call of a function. -/
inductive ForInit.IsPlain : ForInit → Prop where
  | none : IsPlain .none
  | call {loc : Span} {pure : Bool} {id : Ident} {es : List Expr}
    (h : (Expr.call loc false pure (.ident id) es).IsOperation) :
    IsPlain (.expr (.call loc false pure (.ident id) es))

/-- Whether a statement of the kinds in question may start with a lexeme. -/
def Lexeme.opens : Lexeme → Bool
  | .word w => w ∈ [.if, .while, .do, .for, .with] || (Lexeme.word w).starts
  | .punct p => p ∈ [.leftBrace, .semicolon] || (Lexeme.punct p).starts
  | l => l.starts

theorem Lexeme.opens_of_starts {l : Lexeme} (h : l.starts = true) : l.opens = true := by
  cases l <;> simp [opens, h]

theorem Lexeme.ne_of_opens {l : Lexeme} (h : l.opens = true) : l.kind ≠ .word .else ∧
    l.kind ≠ .punct .rightBrace ∧ l.kind ≠ .endOfInput ∧ isSlash l = false := by
  cases l with
  | word w =>
    refine ⟨?_, nofun, nofun, rfl⟩
    rintro ⟨⟩
    cases h
  | punct p =>
    have hall : ∀ p ∈ Punct.all, (Lexeme.punct p).opens = true → p ≠ .rightBrace ∧
        isSlash (.punct p) = false := by
      decide
    obtain ⟨hbrace, hslash⟩ := hall p (Scanning.mem_all p) h
    exact ⟨nofun, fun heq => hbrace (TokenKind.punct.inj heq), nofun, hslash⟩
  | endOfInput => cases h
  | _ => exact ⟨nofun, nofun, nofun, rfl⟩

def Targets.Within (t : Targets) (labels : List String) : Prop :=
  ∀ x, (t.label x).isSome = true → x ∈ labels

/-- Some tokens before others are read as a statement. -/
def Stmt.ReadFrom (labels : List String) (s : Stmt) (ws rest : List Written) : Prop :=
  ∀ ⦃t : Targets⦄ ⦃n : Nat⦄, t.Within labels → ws.length ≤ n →
    Passes t (statement (Grammar.levels (n + 1))) (ws.map lexeme) (rest.map lexeme) s.RereadAs

/-- The layout of a statement puts tokens before those that come next, and they are read as the
statement, unless an `else` would be taken from what comes next. -/
structure Stmt.ConveyedBy (labels : List String) (s : Stmt) (f : List Written → List Written) :
    Prop where
  first : ∃ w, w.lexeme.opens = true ∧ (∀ rest, ∃ ts, f rest = w :: ts) ∧
    (w.lexeme.kind = .string → ∃ loc e, s = .expr loc e ∧ ∀ lit, e ≠ .str lit)
  lays : (stmt {} s).Lays f
  reads : ∀ {rest}, (s.dangles = true → NotElse rest) → s.ReadFrom labels (f rest) rest

namespace Stmt

variable {labels : List String} {s b c a : Stmt} {f g : List Written → List Written} {loc : Span}
  {ss : List Stmt} {P : Stmt → Prop}

theorem ReadFrom.passes (h : s.ReadFrom labels ws rest) (ht : t.Within labels)
    (hn : ws.length < n) :
    Passes t (statement (Grammar.levels n)) (ws.map lexeme) (rest.map lexeme) s.RereadAs := by
  cases n with
  | zero => exact absurd hn (Nat.not_lt_zero _)
  | succ n => exact h ht (Nat.le_of_lt_succ hn)

/-! ### Loops -/

theorem ReadFrom.loopBody (h : b.ReadFrom labels ws rest) (ht : t.Within labels)
    (hn : ws.length < n) :
    Passes t (loopBody (Grammar.levels (n + 1))) (ws.map lexeme) (rest.map lexeme) b.RereadAs :=
  .inContext (fun _ hc => ⟨hc.strict, hc.isAsync⟩) (fun c hc => hc ▸ c.targets_loop)
    (h.passes (t := t.inLoop) ht hn)

theorem passes_headed (he : e.Conveyed ws) {w : Word} {k : Position → Expr → Parse Stmt}
    (hn : (headed w ws ts).length ≤ n)
    (hk : ∀ start e', e.ReadsAs e' → Passes t (k start e') (ts.map lexeme) ls P) :
    Passes t (do
      let start ← start
      discard bump
      let e ← parenExpression (Grammar.levels (n + 1))
      k start e) ((headed w ws ts).map lexeme) ls P := by
  refine Passes.start.bind fun start _ => (Passes.bump rfl).discard.bind fun _ _ =>
    (he.passes_paren ?_).bind fun e' he' => hk start e' he'
  grind [headed]

theorem conveyed_while (he : e.Conveyed ws) (hb : b.ConveyedBy labels f) :
    (Stmt.while loc e b).ConveyedBy labels fun rest => headed .while ws (f rest) where
  first := ⟨word .while, rfl, fun _ => ⟨_, rfl⟩, nofun⟩
  lays := (hb.lays.body b).headed .while loc he.writes (he.solid.neat rfl)
  reads hdangles t n ht hn := by
    refine Passes.start.bind fun _ _ => (Passes.kind rfl).next (passes_headed he hn
      fun start e' he' => ((hb.reads hdangles).loopBody ht ?_).bind fun b' hb' =>
      (Passes.spanFrom _).bind fun _ _ => .pure ?_)
    · grind [headed]
    · unfold RereadAs
      rw [outline, outline, he', hb']

theorem conveyed_with (he : e.Conveyed ws) (hb : b.ConveyedBy labels f) :
    (Stmt.with loc e b).ConveyedBy labels fun rest => headed .with ws (f rest) where
  first := ⟨word .with, rfl, fun _ => ⟨_, rfl⟩, nofun⟩
  lays := (hb.lays.body b).headed .with loc he.writes (he.solid.neat rfl)
  reads hdangles t n ht hn := by
    refine Passes.start.bind fun _ _ => (Passes.kind rfl).next (Passes.start.bind fun _ _ =>
      Passes.isStrict.next ((Passes.bump rfl).discard.bind fun _ _ => (he.passes_paren ?_).bind
      fun e' he' => ((hb.reads hdangles).passes ht ?_).bind fun b' hb' =>
      (Passes.spanFrom _).bind fun _ _ => .pure ?_))
    · grind [headed]
    · grind [headed]
    · unfold RereadAs
      rw [outline, outline, he', hb']

theorem passes_for {g : Grammar}
    (h : ∀ start, Passes t (do
      if ← eatPunct .semicolon then forRest g start .none
      else
        match ← declKind? with
        | some kind => forDecl g start false kind
        | none => forExpr g start false) ls ls' P) :
    Passes t (statement g) (.word .for :: .punct .leftParen :: ls) ls' P := by
  refine Passes.start.bind fun _ _ => (Passes.kind rfl).next (Passes.start.bind fun start _ =>
    (Passes.bump rfl).discard.bind fun _ _ => Passes.get.bind fun st hst => ?_)
  rw [hst.1.facing.calm.context.isAsync]
  exact (Passes.pure (P := (· = false)) rfl).next ((Passes.expectPunct rfl rfl).bind
    fun _ _ => h start)

/-- An optional expression in the head of a loop. -/
structure OptConveyed (o : Option Expr) (ws : List Written) : Prop where
  neat : ∀ {op : Written} {rest : List Written}, op.lexeme.isOperator = true → Neat (op :: rest) →
    Neat (ws ++ op :: rest)
  writes : (optExpr {} Strength.sequence space o).Writes ws
  reads : ∀ (t : Targets) {n : Nat} {p : Punct} {ls : List Lexeme}, p = .semicolon
    ∨ p = .rightParen →
    (ws.map lexeme ++ .punct p :: ls).length < n → ∃ ends,
    Passes t (isPunct p) (ws.map lexeme ++ .punct p :: ls)
      (ws.map lexeme ++ .punct p :: ls) (· = ends) ∧
    Passes t (if ends then pure none else some <$> innerExpression (Grammar.levels (n + 1)))
      (ws.map lexeme ++ .punct p :: ls) (.punct p :: ls)
      fun o' => o'.map (·.shape true) = o.map (·.shape false)

theorem exists_optConveyed {o : Option Expr} (h : ∀ e ∈ o, e.IsOperation) :
    ∃ ws, OptConveyed o ws := by
  cases o with
  | none =>
    refine ⟨[], fun _ h => h, writes_empty, fun t n p ls hp _ => ⟨true, ?_, .pure rfl⟩⟩
    exact .isPunct_eq rfl (by rcases hp with rfl | rfl <;> rfl)
  | some e =>
    obtain ⟨ws, he⟩ := (h e rfl).exists_conveyed
    refine ⟨ws, fun hop h => he.solid.neat hop h, writes_space.append he.writes,
      fun t n p ls hp hn => ⟨false, ?_, ?_⟩⟩
    · obtain ⟨w, ts, rfl, hstarts⟩ := he.solid.exists_first
      refine .isPunct_ne (kind_ne_of_startsPunct hstarts ?_)
      rcases hp with rfl | rfl <;> decide
    · refine (he.reads ?_ hn).map fun e' he' => congrArg some he'
      rcases hp with rfl | rfl <;> exact close_follows rfl (by decide)

theorem Passes.isOver (hl : isSlash l = false) : Passes t isOver (l :: ls) (l :: ls)
    (· = (l.kind == .word .of || l.kind == .word .in)) :=
  .look (fun _ => rfl) fun st hat _ => by rw [Token.kind, hat.lexeme_eq hl]

theorem passes_forExpr (h : Chained true e ls₁) (harrow : isArrow e = false)
    (hl : l = .punct .semicolon ∨ l = .word .in) (hn : (ls₁ ++ l :: ls).length < n)
    (hrest : ∀ start initStart e', e.ReadsAs e' → Passes t (do
      if ← isOver then
        match e'.toPattern (← isStrict) false with
        | .ok p => forOverRest (Grammar.levels (n + 1)) start false (.pat p)
        | .error _ => fail .badForTarget initStart
      else
        expectPunct .semicolon
        forRest (Grammar.levels (n + 1)) start (.expr e')) (l :: ls) ls' P) :
    Passes t (statement (Grammar.levels (n + 1)))
      (.word .for :: .punct .leftParen :: (ls₁ ++ l :: ls)) ls' P := by
  have hnoIn := h.passes_noIn (t := t) harrow hl hn
  obtain ⟨l₁, ls₁, rfl, hstarts⟩ := h.starts
  have hdecl : Passes t declKind? (l₁ :: ls₁ ++ l :: ls) (l₁ :: ls₁ ++ l :: ls) (· = none) := by
    refine (Passes.kind (isSlash_of_starts hstarts)).next ?_
    cases l₁ with
    | word w => rcases word_of_starts hstarts with rfl | rfl | rfl | rfl | rfl <;> exact .pure rfl
    | _ => exact .pure rfl
  exact passes_for fun start => (Passes.eatPunct_ne
    (kind_ne_of_startsPunct hstarts (by decide))).next
    (hdecl.next (Passes.start.bind fun initStart _ => hnoIn.bind fun e' he' =>
      hrest start initStart e' he'))

theorem passes_forOver {start : Position} {id id' : Ident} (hid : id'.shape true = id.shape false)
    (he : e.Conveyed ws) (hn : (ws ++ punct .rightParen rfl :: ts).length < n)
    (hbody : Passes t (loopBody (Grammar.levels (n + 1))) (ts.map lexeme) ls b.RereadAs) :
    Passes t (forOverRest (Grammar.levels (n + 1)) start false (.pat (.ident id')))
      ((word .in :: (ws ++ punct .rightParen rfl :: ts)).map lexeme) ls
      (Stmt.forIn loc (.pat (.ident id)) e b).RereadAs := by
  have hclose : Follows Strength.sequence ((punct .rightParen rfl :: ts).map lexeme) :=
    close_follows (p := .rightParen) rfl (by decide)
  refine (Passes.bump rfl).bind fun token htoken => ?_
  have hof : (token.kind == .word .of) = false := by
    rw [Token.kind, htoken]
    rfl
  rw [hof]
  show Passes t (do
    let object ← innerExpression (Grammar.levels (n + 1))
    expectPunct .rightParen
    let body ← loopBody (Grammar.levels (n + 1))
    let loc ← spanFrom start
    return Stmt.forIn loc (.pat (.ident id')) object body) _ _ _
  rw [List.map_append]
  refine (he.reads hclose (by simpa using hn)).bind fun x hx => (Passes.expectPunct rfl rfl).bind
    fun _ _ => hbody.bind fun b' hb' => (Passes.spanFrom _).bind fun _ _ => .pure ?_
  unfold RereadAs
  rw [outline, outline, ForTarget.shape, ForTarget.shape, hid, hx, hb']

theorem passes_forRest {init init' : ForInit} {test update : Option Expr} {wst wsu : List Written}
    {start : Position} (hinit : init'.shape true = init.shape false) (htest : OptConveyed test wst)
    (hupdate : OptConveyed update wsu)
    (hn : (wst ++ punct .semicolon rfl :: (wsu ++ punct .rightParen rfl :: ts)).length < n)
    (hbody : Passes t (loopBody (Grammar.levels (n + 1))) (ts.map lexeme) ls b.RereadAs) :
    Passes t (forRest (Grammar.levels (n + 1)) start init')
      ((wst ++ punct .semicolon rfl :: (wsu ++ punct .rightParen rfl :: ts)).map lexeme) ls
      (Stmt.for loc init test update b).RereadAs := by
  simp only [List.map_append, List.map_cons]
  simp only [List.length_append, List.length_cons] at hn
  obtain ⟨_, hends, htest⟩ := htest.reads t (.inl rfl) (show (_ ++ _ :: (wsu.map lexeme ++
    .punct .rightParen :: ts.map lexeme)).length < n by simp; omega)
  obtain ⟨_, hends', hupdate⟩ := hupdate.reads t (.inr rfl) (show (_ ++ _ ::
    ts.map lexeme).length < n by simp; omega)
  refine hends.next (Passes.ite_bind htest fun test' htest' => (Passes.expectPunct rfl rfl).bind
    fun _ _ => hends'.next (Passes.ite_bind hupdate fun update' hupdate' =>
    (Passes.expectPunct rfl rfl).bind fun _ _ => hbody.bind fun b' hb' => (Passes.spanFrom _).bind
    fun _ _ => .pure ?_))
  unfold RereadAs
  rw [outline, outline, hinit, htest', hupdate', hb']

theorem conveyed_forIn {id : Ident} (hname : isIdentifierName id.name = true)
    (hword : Word.ofText? id.name = none) (he : e.Conveyed ws) (hb : b.ConveyedBy labels f) :
    (Stmt.forIn loc (.pat (.ident id)) e b).ConveyedBy labels fun rest =>
      headed .for (name id.name hname :: word .in :: ws) (f rest) where
  first := ⟨word .for, rfl, fun _ => ⟨_, rfl⟩, nofun⟩
  lays := (hb.lays.body b).headed .for loc (((writes_ident hname).append
    (writes_token (w := word .in) rfl)).append he.writes)
      fun h => ((he.solid.neat rfl h).word .in).name hname
  reads {rest} hdangles t n ht hn := by
    have hchain : Derives (.chain true (.ident id)) [name id.name hname] :=
      .head (.ident hname hword)
    simp only [headed, List.length_cons, List.length_append, List.cons_append] at hn
    refine passes_forExpr hchain.isRead.1 rfl (.inr rfl) (by simp; omega)
      fun start initStart x hx => ?_
    obtain ⟨id', rfl, hid⟩ := hx.exists_ident
    exact (Passes.isOver rfl).next (Passes.isStrict.next (passes_forOver hid he (by simp; omega)
      ((hb.reads hdangles).loopBody ht (by omega))))

theorem exists_conveyed_for {init : ForInit} {test update : Option Expr} (hinit : init.IsPlain)
    (htest : ∀ e ∈ test, e.IsOperation) (hupdate : ∀ e ∈ update, e.IsOperation)
    (hb : b.ConveyedBy labels f) :
    ∃ f', (Stmt.for loc init test update b).ConveyedBy labels f' := by
  obtain ⟨wst, htest⟩ := exists_optConveyed htest
  obtain ⟨wsu, hupdate⟩ := exists_optConveyed hupdate
  obtain ⟨wsi, hneat, hwrites, hreads⟩ : ∃ wsi : List Written,
      (∀ {ts}, Neat (punct .semicolon rfl :: ts) → Neat (wsi ++ punct .semicolon rfl :: ts)) ∧
      (forInit {} init).Writes wsi ∧
      ∀ {t : Targets} {n : Nat} {ls ls' : List Lexeme} {P : Stmt → Prop},
        (wsi.map lexeme ++ .punct .semicolon :: ls).length < n →
        (∀ start init', init'.shape true = init.shape false →
          Passes t (forRest (Grammar.levels (n + 1)) start init') ls ls' P) →
        Passes t (statement (Grammar.levels (n + 1))) (.word .for :: .punct .leftParen ::
          (wsi.map lexeme ++ .punct .semicolon :: ls)) ls' P := by
    cases hinit with
    | none =>
      exact ⟨[], fun h => h, writes_empty, fun _ hrest => passes_for fun start =>
        (Passes.eat rfl rfl).next (hrest start .none rfl)⟩
    | call h =>
      obtain ⟨ws, hderives, hwrites⟩ := h.laid.chain (Nat.le_refl _) true (.inl rfl)
      exact ⟨ws, Solid.neat hderives.arranged rfl, hwrites.of_eq (Prod.ext (List.append_nil _) rfl),
        fun hn hrest => passes_forExpr hderives.isRead.1 rfl (.inl rfl) hn fun start _ x hx =>
          (Passes.isOver rfl).next ((Passes.expectPunct rfl rfl).bind fun _ _ =>
            hrest start (.expr x) (congrArg ForInit.expr hx))⟩
  have hhead := (((hwrites.append (writes_token (w := punct .semicolon rfl) rfl)).append
    htest.writes).append (writes_token (w := punct .semicolon rfl) rfl)).append hupdate.writes
  refine ⟨_, ⟨word .for, rfl, fun _ => ⟨_, rfl⟩, nofun⟩, (hb.lays.body b).headed .for loc hhead
    fun h => ?_, fun {rest} hdangles t n ht hn => ?_⟩
  · simp only [List.append_assoc, List.singleton_append]
    exact hneat ((htest.neat rfl ((hupdate.neat rfl h).punct rfl rfl)).punct rfl rfl)
  · have hmap : (headed .for (wsi ++ [punct .semicolon rfl] ++ wst ++ [punct .semicolon rfl] ++ wsu)
        (f rest)).map lexeme = .word .for :: .punct .leftParen :: (wsi.map lexeme ++
          .punct .semicolon :: (wst ++ punct .semicolon rfl ::
            (wsu ++ punct .rightParen rfl :: f rest)).map lexeme) := by
      simp [headed, word, punct]
    simp only [List.length_append, List.length_cons, List.length_nil] at hn
    show Passes t _ ((headed .for _ (f rest)).map lexeme) _ _
    rw [hmap]
    exact hreads (by simp; omega) fun start init' hinit' => passes_forRest hinit' htest hupdate
      (by simp; omega) ((hb.reads hdangles).loopBody ht (by omega))

theorem passes_eat_due (rest : List Written) :
    Passes t (eatPunct .semicolon) ((due true rest ++ rest).map lexeme) (rest.map lexeme)
      fun _ => True := by
  rcases due_cases rest with heq | ⟨heq, w, ws, rfl, hw⟩ <;> rw [heq]
  · exact (Passes.eat rfl rfl).mono fun _ _ => trivial
  · exact (Passes.eatPunct_ne (by rw [hw]; nofun)).mono fun _ _ => trivial

theorem conveyed_doWhile (he : e.Conveyed ws) (hb : b.ConveyedBy labels f) :
    (Stmt.doWhile loc b e).ConveyedBy labels fun rest =>
      word .do :: f (headed .while ws (due true rest ++ rest)) where
  first := ⟨word .do, rfl, fun _ => ⟨_, rfl⟩, nofun⟩
  lays := by
    have hstart := ((lays_word .do).after (writes_lead loc)).append (hb.lays.body b)
    have hend : (space ++ head "while" (slot Strength.sequence e
        (inner {} · e)) ++ semi).Lays fun rest =>
          headed .while ws (due true rest ++ rest) := by
      refine ⟨((writes_space.append (writes_head .while he.writes)).semi nofun).congr
        fun rest => by simp [headed], fun rest => ?_, fun h => ?_⟩
      · grind [headed]
      · exact ((he.solid.neat rfl (h.due.punct rfl rfl)).punct (p := .leftParen) rfl rfl).word _
    have hlays := hstart.append hend
    show (lead loc ++ token "do" ++ body {} b (stmt {} b) ++ space
      ++ head "while" (slot Strength.sequence e (inner {} · e)) ++ semi).Lays _
    simp only [append_assoc] at hlays ⊢
    exact hlays
  reads {rest} _ t n ht hn := by
    have hlength := hb.lays.grows (headed .while ws (due true rest ++ rest))
    refine Passes.start.bind fun _ _ => (Passes.kind rfl).next (Passes.start.bind fun _ _ =>
      (Passes.bump rfl).discard.bind fun _ _ => ((hb.reads fun _ heq => by cases heq).loopBody ht
      hn).bind fun b' hb' => (Passes.expect rfl rfl).discard.bind fun _ _ =>
      (he.passes_paren ?_).bind fun e' he' => (passes_eat_due rest).discard.bind fun _ _ =>
      (Passes.spanFrom _).bind fun _ _ => .pure ?_)
    · grind [headed]
    · unfold RereadAs
      rw [outline, outline, he', hb']

/-! ### Lists of statements -/

/-- Statements one after the other. -/
inductive AllConveyed (labels : List String) :
    List Stmt → (List Written → List Written) → Prop where
  | nil : AllConveyed labels [] id
  | cons {s : Stmt} {ss : List Stmt} {f g : List Written → List Written}
    (hs : s.ConveyedBy labels f) (hss : AllConveyed labels ss g) :
    AllConveyed labels (s :: ss) fun rest => f (g rest)

namespace AllConveyed

variable (h : AllConveyed labels ss g)

include h

theorem puts : (concat ((stmts {} ss).map (newline ++ ·))).Puts g := by
  induction h with
  | nil => exact writes_empty.toPuts
  | cons hs hss ih => exact (hs.lays.after writes_newline).toPuts.append ih

theorem grows (rest : List Written) : rest.length ≤ (g rest).length := by
  induction h with
  | nil => exact Nat.le_refl _
  | cons hs hss ih => exact ih.trans (hs.lays.grows _).le

theorem neat (hrest : Neat rest) : Neat (g rest) := by
  induction h with
  | nil => exact hrest
  | cons hs hss ih => exact hs.lays.neat ih

theorem first (rest : List Written) :
    g rest = rest ∨ ∃ w ts, g rest = w :: ts ∧ w.lexeme.opens = true := by
  cases h with
  | nil => exact .inl rfl
  | @cons s ss f g hs hss =>
    obtain ⟨w, hopens, hfirst, -⟩ := hs.first
    obtain ⟨ts, hts⟩ := hfirst (g rest)
    exact .inr ⟨w, ts, hts, hopens⟩

theorem not_else (hrest : NotElse rest) : NotElse (g rest) := by
  rcases h.first rest with heq | ⟨w, ts, heq, hopens⟩ <;> rw [heq]
  · exact hrest
  · exact (Lexeme.ne_of_opens hopens).1

end AllConveyed

theorem passes_item {g : Grammar} (hl : l.opens = true)
    (h : Passes t (statement g) (l :: ls) ls' P) : Passes t (item g) (l :: ls) ls' P := by
  refine (Passes.kind (Lexeme.ne_of_opens hl).2.2.2).next ?_
  cases l with
  | word w =>
    have hw : w = .if ∨ w = .while ∨ w = .do ∨ w = .for ∨ w = .with ∨ w = .this ∨ w = .new ∨
        w = .typeof ∨ w = .void ∨ w = .delete := by
      simpa [Lexeme.opens, Lexeme.starts, or_assoc] using hl
    rcases hw with rfl | rfl | rfl | rfl | rfl | rfl | rfl | rfl | rfl | rfl <;> exact h
  | _ => exact h

/-- The rounds of a loop that reads a statement in each; `items` gives those that it has read,
last first. -/
theorem AllConveyed.turns {σ α : Type} {step : σ → Parse (σ ⊕ α)} {P : α → Prop}
    (h : AllConveyed labels ss g) (items : σ → List Stmt) (ht : t.Within labels)
    (hrest : NotElse rest) (hn : (g rest).length < n)
    (hround : ∀ {s : Stmt} {l : Lexeme} {ls ls' : List Lexeme} {x : σ}, l.opens = true →
      (l.kind = .string → ∃ loc e, s = .expr loc e ∧ ∀ lit, e ≠ .str lit) →
      Passes t (item (Grammar.levels n)) (l :: ls) ls' s.RereadAs →
      Passes t (step x) (l :: ls) ls'
        fun y => ∃ x', y = .inl x' ∧ ∃ s', items x' = s' :: items x ∧ s.RereadAs s') {x : σ}
    (hend : ∀ x', (items x').reverse.map (outline true) =
      (items x).reverse.map (outline true) ++ ss.map (outline false) →
      Turns t step x' (rest.map lexeme) ls P) : Turns t step x ((g rest).map lexeme) ls P := by
  induction h generalizing x with
  | nil => exact hend x (by simp)
  | @cons s ss f g hs hss ih =>
    obtain ⟨w, hopens, hfirst, hstring⟩ := hs.first
    obtain ⟨ts, hts⟩ := hfirst (g rest)
    have hgrows := hs.lays.grows (g rest)
    have hreads := (hs.reads fun _ => hss.not_else hrest).passes ht hn
    have hlength := hgrows.trans hn
    show Turns t step x ((f (g rest)).map lexeme) ls P
    rw [hts] at hgrows hreads ⊢
    refine .more (by simpa using hgrows) (hround hopens hstring (passes_item hopens hreads)) ?_
    rintro x' ⟨s', hitems, hs'⟩
    refine ih hlength fun x'' heq => hend x'' ?_
    rw [heq, hitems, List.reverse_cons, List.map_append, List.map_singleton, hs', List.append_assoc]
    rfl

theorem conveyed_block (h : AllConveyed labels ss g) : (Stmt.block ⟨loc, ss⟩).ConveyedBy labels
    fun rest => punct .leftBrace rfl :: g (punct .rightBrace rfl :: rest) where
  first := ⟨punct .leftBrace rfl, rfl, fun _ => ⟨_, rfl⟩, nofun⟩
  lays := by
    have hend : (onlyIf (!(stmts {} ss).isEmpty) newline).Writes [] := by
      unfold onlyIf
      split
      · exact writes_newline
      · exact writes_empty
    exact (h.puts.braced h.grows h.neat hend).after (Layout.writes_lead loc)
  reads {rest} _ t n ht hn := by
    have hbody : Passes t (Parse.block (Grammar.levels (n + 1)))
        ((punct .leftBrace rfl :: g (punct .rightBrace rfl :: rest)).map lexeme) (rest.map lexeme)
        fun b : Block => b.body.map (outline true) = ss.map (outline false) := by
      refine Passes.start.bind fun _ _ => (Passes.expectPunct rfl rfl).bind fun _ _ =>
        (show Passes t _ _ (.punct .rightBrace :: rest.map lexeme) (fun body =>
          body.map (outline true) = ss.map (outline false)) from Turns.repeatUntil (h.turns id ht
            (fun heq => by cases heq) hn ?_ fun acc hacc => .last ?_)).bind
        fun body hbody => (Passes.bump rfl).discard.bind fun _ _ => (Passes.spanFrom _).bind
        fun _ _ => .pure hbody
      · intro s l ls ls' acc hopens _ hitem
        obtain ⟨-, hbrace, hend, -⟩ := Lexeme.ne_of_opens hopens
        exact Passes.next ((Passes.isPunct_ne hbrace).next ((Passes.isAt_ne hend nofun).next
          (.pure rfl))) (hitem.bind fun s' hs' => .pure ⟨_, rfl, s', rfl, hs'⟩)
      · exact Passes.next ((Passes.isPunct_eq rfl rfl).next (.pure rfl)) (.pure ⟨_, rfl, hacc⟩)
    refine Passes.start.bind fun _ _ => (Passes.kind rfl).next (hbody.bind fun b hb => .pure ?_)
    obtain ⟨loc', body⟩ := b
    unfold RereadAs
    rw [outline, outline, outlines_eq_map, outlines_eq_map, hb]

/-! ### Branches -/

theorem conveyed_if (he : e.Conveyed ws) (hc : c.ConveyedBy labels f) :
    (Stmt.if loc e c none).ConveyedBy labels fun rest => headed .if ws (f rest) where
  first := ⟨word .if, rfl, fun _ => ⟨_, rfl⟩, nofun⟩
  lays := ((hc.lays.body c).headed .if loc he.writes (he.solid.neat rfl)).before writes_empty
  reads hdangles t n ht hn := by
    have helse := hdangles rfl
    refine Passes.start.bind fun _ _ => (Passes.kind rfl).next (passes_headed he hn
      fun start e' he' => ((hc.reads fun _ => helse).passes ht ?_).bind fun c' hc' =>
      (Passes.eat_false helse nofun).next ((Passes.pure (P := (· = none)) rfl).next
      ((Passes.spanFrom _).bind fun _ _ => .pure ?_)))
    · grind [headed]
    · unfold RereadAs
      rw [outline, outline, he', hc', outlineOpt, outlineOpt]

theorem ConveyedBy.exists_branch (hc : c.ConveyedBy labels f) :
    ∃ f', (branch {} c (stmt {} c)).Lays f' ∧
      ∀ {t : Targets} {n : Nat} {rest : List Written}, t.Within labels →
        (f' (word .else :: rest)).length < n →
        Passes t (statement (Grammar.levels n)) ((f' (word .else :: rest)).map lexeme)
          ((word .else :: rest).map lexeme)
          fun c' => (c'.outline true).unbraced = (c.outline false).unbraced := by
  unfold branch
  cases hdangles : c.dangles with
  | false =>
    have hend : (if c.isBlock then space else newline).Writes [] := by
      split
      · exact writes_space
      · exact writes_newline
    refine ⟨f, (hc.lays.body c).before hend, fun ht hn => ?_⟩
    refine ((hc.reads ?_).passes ht hn).mono fun c' hc' => congrArg unbraced hc'
    rw [hdangles]
    exact nofun
  | true =>
    have hblock : (Stmt.block ⟨.nowhere, [c]⟩).ConveyedBy labels _ := conveyed_block (.cons hc .nil)
    refine ⟨fun rest => punct .leftBrace rfl :: f (punct .rightBrace rfl :: rest), ?_,
      fun ht hn => ((hblock.reads nofun).passes ht hn).mono fun c' hc' => ?_⟩
    · have hlays := ((((hc.lays.after Layout.writes_newline).toPuts.braced
        (fun rest => (hc.lays.grows rest).le) hc.lays.neat writes_newline).after
          writes_space).before writes_space)
      simp only [if_true, append_assoc] at hlays ⊢
      exact hlays
    · unfold RereadAs at hc'
      have hunbraced : (c.outline false).unbraced = c.outline false := by
        cases c <;> first | rfl | cases hdangles
      rw [hc', hunbraced]
      rfl

theorem exists_conveyed_ifElse (he : e.Conveyed ws) (hc : c.ConveyedBy labels f)
    (ha : a.ConveyedBy labels g) : ∃ f', (Stmt.if loc e c (some a)).ConveyedBy labels f' := by
  obtain ⟨f', hlays, hreads⟩ := hc.exists_branch
  have halternate : (alternate {} (some a)).Lays fun rest => word .else :: g rest := by
    rw [alternate]
    refine (lays_word .else).append ?_
    split
    · exact ha.lays.after writes_space
    · exact ha.lays.body a
  refine ⟨_, ⟨word .if, rfl, fun _ => ⟨_, rfl⟩, nofun⟩,
    (hlays.headed .if loc he.writes (he.solid.neat rfl)).append halternate,
    fun {rest} hdangles t n ht hn => ?_⟩
  have hgrows := hlays.grows (word .else :: g rest)
  have hlength : (headed .if ws (f' (word .else :: g rest))).length ≤ n := hn
  rw [length_headed] at hlength
  rw [List.length_cons] at hgrows
  refine Passes.start.bind fun _ _ => (Passes.kind rfl).next (passes_headed he hn
    fun start e' he' => (hreads ht (by omega)).bind fun c' hc' => (Passes.eat rfl rfl).next
    ((((ha.reads hdangles).passes ht (by omega)).map
      (Q := fun a' => a'.map (outline true) = some (a.outline false))
      fun a' ha' => congrArg some ha').bind fun a' ha' =>
        (Passes.spanFrom _).bind fun _ _ => .pure ?_))
  cases a' with
  | none => cases ha'
  | some a' =>
    unfold RereadAs
    rw [outline, outline, he', hc', outlineOpt, outlineOpt, Option.some.inj ha']

/-! ### Other statements -/

theorem conveyed_empty : (Stmt.empty loc).ConveyedBy labels (punct .semicolon rfl :: ·) where
  first := ⟨punct .semicolon rfl, rfl, fun _ => ⟨_, rfl⟩, nofun⟩
  lays := (lays_punct (p := .semicolon) rfl rfl).after (writes_lead loc)
  reads _ _ _ _ _ := Passes.start.bind fun _ _ => (Passes.kind rfl).next
    ((Passes.bump rfl).discard.bind fun _ _ => (Passes.spanFrom _).bind fun _ _ => .pure rfl)

theorem Passes.peekKind {l' : Lexeme} (hl : isSlash l = false) :
    Passes t peekKind (l :: l' :: ls) (l :: l' :: ls)
      fun k => k = l'.kind ∨ (k = .regexp ∧ isSlash l' = true) := by
  refine (Passes.peek? hl).bind ?_
  rintro _ ⟨token, rfl, h⟩
  exact .pure h

theorem conveyed_labeled {label : Ident} (hname : isIdentifierName label.name = true)
    (hword : Word.ofText? label.name = none) (hlabel : label.name ∉ labels)
    (hb : b.ConveyedBy (label.name :: labels) f) :
    (Stmt.labeled loc label b).ConveyedBy labels fun rest =>
      name label.name hname :: punct .colon rfl :: f rest := by
  have hlexeme : (name label.name hname).lexeme = .identifier label.name :=
    Scanning.ofName_of_ofText? hword
  refine ⟨⟨_, by rw [hlexeme]; rfl, fun _ => ⟨_, rfl⟩,
    by simp [hlexeme, Lexeme.kind]⟩, ⟨?_, fun rest => ?_,
    fun h => ?_⟩, fun {rest} hdangles t n ht hn => ?_⟩
  · exact (((writes_lead loc).append (writes_ident hname)).append
      (writes_token (w := punct .colon rfl) rfl)).toPuts.append (hb.lays.body b).toPuts
  · have hgrows := hb.lays.grows rest
    simp only [List.length_cons]
    omega
  · exact ((hb.lays.neat h).punct (p := .colon) rfl rfl).name hname
  · have hloop : Passes t startsLoop ((f rest).map lexeme) ((f rest).map lexeme) fun _ => True := by
      obtain ⟨w, hopens, hfirst, -⟩ := hb.first
      obtain ⟨ts, hts⟩ := hfirst rest
      rw [hts]
      refine (Passes.kind (Lexeme.ne_of_opens hopens).2.2.2).bind fun _ _ => ?_
      split <;> exact .pure trivial
    rw [List.map_cons, hlexeme]
    refine Passes.start.bind fun _ _ => (Passes.kind rfl).next ((Passes.isName rfl).next
      ((Passes.peekKind rfl).bind fun k hcolon => ?_))
    rw [hcolon.resolve_right fun h => Bool.false_ne_true h.2]
    refine Passes.start.bind fun _ _ => (Passes.ident _).bind fun id hid =>
      (Passes.expectPunct rfl rfl).bind fun _ _ => Passes.get.bind fun st hst => ?_
    have hidName : id.name = label.name := (Ident.mk.inj hid).2.1
    have hany : st.context.labels.any (·.name == id.name) = false := by
      have hnone : st.context.targets.label label.name = none :=
        Option.not_isSome_iff_eq_none.mp fun h => hlabel (ht _ (hst.2 ▸ h))
      rw [hidName]
      simpa [Context.targets] using hnone
    rw [hany]
    refine hloop.bind fun isLoop _ => ?_
    have hbody : Passes t (inContext (fun c => { c with labels := ⟨id.name, isLoop⟩ :: c.labels })
        (statement (Grammar.levels n))) ((f rest).map lexeme) (rest.map lexeme) b.RereadAs := by
      refine .inContext (fun _ hc => ⟨hc.strict, hc.isAsync⟩)
        (fun c hc => hc ▸ c.targets_label id.name isLoop) ((hb.reads hdangles).passes ?_ (by grind))
      intro x hx
      rw [hidName] at hx
      by_cases hxl : x = label.name
      · exact hxl ▸ List.mem_cons_self
      · exact List.mem_cons_of_mem _ (ht x (by simpa [Targets.labeled, hxl] using hx))
    refine hbody.bind fun b' hb' => (Passes.spanFrom _).bind fun _ _ => .pure ?_
    unfold RereadAs
    rw [outline, outline, hid, hb']
    rfl

/-- The statement of an expression: a string stands in parentheses there, lest it be a
directive. -/
theorem exists_statement {e : Expr} (he : e.IsOperation) (loc : Span) :
    ∃ es ws l, e.IsSequenceOf es ∧ Derives (.items es) ws ∧ l.Writes ws ∧
      stmt {} (.expr loc e) = lead loc ++ l ++ semi ∧
      ∀ lit, e = .str lit → ∀ w ∈ ws.head?, w.lexeme.kind ≠ .string := by
  obtain ⟨es, ws, hes, hderives, hl⟩ := he.laid.items
  by_cases hstr : ∃ lit, e = .str lit
  · obtain ⟨lit, rfl⟩ := hstr
    have hitems : Derives (.items [.str lit])
        (punct .leftParen rfl :: ws ++ [punct .rightParen rfl]) :=
      .last (by decide) (.chain (.head (.parens hes hderives)))
    refine ⟨_, _, _, Expr.isSequenceOf_self rfl, hitems, hl.parens, rfl, ?_⟩
    rintro _ - _ ⟨⟩
    decide +kernel
  · have hslot : (slot Strength.sequence e (inner {} · e)).Writes ws :=
      hl.slot_of_le (Nat.zero_le _)
    refine ⟨es, ws, _, hes, hderives, hslot, ?_, fun lit heq => absurd ⟨lit, heq⟩ hstr⟩
    refine congrArg (lead loc ++ · ++ semi) (if_neg ?_)
    rw [he.startsStatement_eq]
    cases e with
    | str lit => exact absurd ⟨lit, rfl⟩ hstr
    | _ => exact Bool.false_ne_true

theorem passes_labeledOrExpression {g : Grammar} (hl : l.starts = true)
    (h : Passes t (labeledOrExpression g) (l :: ls) ls' P) :
    Passes t (statement g) (l :: ls) ls' P := by
  refine Passes.start.bind fun _ _ => (Passes.kind (isSlash_of_starts hl)).next ?_
  cases l with
  | word w => rcases word_of_starts hl with rfl | rfl | rfl | rfl | rfl <;> exact h
  | punct p =>
    have hp : p = .leftParen ∨ p = .plus ∨ p = .minus ∨ p = .bang ∨ p = .tilde ∨ p = .plusPlus ∨
        p = .minusMinus := by
      simpa [Lexeme.starts] using hl
    rcases hp with rfl | rfl | rfl | rfl | rfl | rfl | rfl <;> exact h
  | _ => exact h

theorem exists_due (rest : List Written) :
    ∃ l ls, (due true rest ++ rest).map lexeme = l :: ls ∧ Follows Strength.sequence (l :: ls) ∧
      l ≠ .punct .colon ∧ isSlash l = false ∧
      ∀ t : Targets, Passes t semicolon (l :: ls) (rest.map lexeme) fun _ => True := by
  rcases due_cases rest with heq | ⟨heq, w, ws, rfl, hw⟩ <;> rw [heq]
  · exact ⟨_, _, rfl, close_follows (p := .semicolon) rfl (by decide), nofun, rfl,
      fun _ => (Passes.eat rfl rfl).next (.pure trivial)⟩
  · rw [List.nil_append, List.map_cons, hw]
    have hne : (Lexeme.punct .rightBrace).kind ≠ .punct .semicolon := nofun
    exact ⟨_, _, rfl, close_follows (p := .rightBrace) rfl (by decide), nofun, rfl, fun _ =>
      (Passes.eatPunct_ne hne).next ((Passes.isPunct_eq rfl rfl).next (.pure trivial))⟩

theorem passes_name {w : Written} (hk : w.lexeme.kind = .identifier)
    (hfollows : Follows Strength.sequence ls) (hn : (w.lexeme :: ls).length < n) :
    Passes t (commaSeparated (assign (Grammar.levels n) false)) (w.lexeme :: ls) ls
      fun _ => True := by
  obtain ⟨l, text, hspells⟩ := w
  cases hspells with
  | @identifier x hname hword =>
    have hitems : Derives (.items [.ident ⟨.nowhere, x, none⟩]) [name x hname] :=
      .last (by decide) (.chain (.head (.ident hname hword)))
    have hlexeme : [name x hname].map lexeme = [.identifier x] :=
      congrArg (fun l => [l]) (Scanning.ofName_of_ofText? hword)
    have hreads := hitems.isRead.1
    rw [hlexeme] at hreads
    exact (hreads.commaSeparated (Expr.isSequenceOf_self rfl) hfollows hn).mono fun _ _ => trivial
  | _ => cases hk

theorem exists_conveyed_expr (he : e.IsOperation) : ∃ f, (Stmt.expr loc e).ConveyedBy labels f := by
  obtain ⟨es, ws, l, hes, hderives, hl, hstmt, hstring⟩ := exists_statement he loc
  have hsolid := hderives.solid hes
  obtain ⟨w, ws, rfl, hstarts⟩ := hsolid.exists_first
  refine ⟨fun rest => w :: ws ++ (due true rest ++ rest), ⟨w, Lexeme.opens_of_starts hstarts,
    fun _ => ⟨_, rfl⟩, fun hk => ⟨loc, e, rfl, fun lit heq => hstring lit heq w rfl hk⟩⟩,
    ⟨?_, fun rest => ?_, hsolid.neat_due⟩, fun {rest} _ t n _ hn => ?_⟩
  · rw [hstmt]
    exact ((writes_lead loc).append hl).semi nofun
  · simp
    omega
  · obtain ⟨l', ls, hls, hfollows, hcolon, hslash, hsemicolon⟩ := exists_due rest
    have hlength : ((w :: ws).map lexeme ++ l' :: ls).length < n + 1 := by
      rw [← hls, ← List.map_append, List.length_map]
      exact Nat.lt_succ_of_le hn
    have hpasses : Passes t (commaSeparated (assign (Grammar.levels (n + 1)) false))
        ((w :: ws).map lexeme ++ l' :: ls) (l' :: ls) e.ReadsAs :=
      hderives.isRead.1.commaSeparated hes hfollows hlength
    have hstatement : Passes t (expressionStatement (Grammar.levels (n + 1)))
        ((w :: ws).map lexeme ++ l' :: ls) (rest.map lexeme) (Stmt.expr loc e).RereadAs := by
      refine Passes.start.bind fun _ _ => hpasses.bind fun e' he' => (hsemicolon t).bind fun _ _ =>
        (Passes.spanFrom _).bind fun _ _ => .pure ?_
      unfold RereadAs
      rw [outline, outline, he']
    obtain ⟨l₂, ls₂, hsecond⟩ : ∃ l₂ ls₂, ws.map lexeme ++ l' :: ls = l₂ :: ls₂ := by
      cases ws <;> exact ⟨_, _, rfl⟩
    rw [List.map_append, hls]
    rw [List.map_cons, List.cons_append, hsecond] at hpasses hstatement hlength ⊢
    refine passes_labeledOrExpression hstarts ((Passes.isName hstarts).next ?_)
    cases hk : w.lexeme.kind == .identifier with
    | false => exact hstatement
    | true =>
      by_cases hl₂ : l₂ = .punct .colon
      · -- The expression would be read up to the colon and up to its end.
        subst hl₂
        exact .of_ne hpasses (passes_name (beq_iff_eq.mp hk) (close_follows (p := .colon) rfl
          (by decide)) hlength) hslash rfl hcolon
      · refine (Passes.peekKind (isSlash_of_starts hstarts)).bind fun k hk => ?_
        have hne : k ≠ .punct .colon := by
          rcases hk with rfl | ⟨rfl, -⟩
          · exact fun heq => hl₂ (by cases l₂ <;> cases heq; rfl)
          · decide
        rw [beq_eq_false_iff_ne.mpr hne]
        exact hstatement

/-! ## Statements of any depth -/

/-- Statements made of expressions, blocks, branches, loops, `with` and labels, where no label
stands within a statement with the same label. -/
inductive IsPlain : List String → Stmt → Prop where
  | expr {labels loc : _} {e : Expr} (he : e.IsOperation) : IsPlain labels (.expr loc e)
  | empty {labels loc : _} : IsPlain labels (.empty loc)
  | block {labels loc ss : _} (h : ∀ s ∈ ss, IsPlain labels s) : IsPlain labels (.block ⟨loc, ss⟩)
  | if {labels loc c : _} {e : Expr} (he : e.IsOperation) (hc : IsPlain labels c) :
    IsPlain labels (.if loc e c none)
  | ifElse {labels loc c a : _} {e : Expr} (he : e.IsOperation) (hc : IsPlain labels c)
    (ha : IsPlain labels a) : IsPlain labels (.if loc e c (some a))
  | while {labels loc b : _} {e : Expr} (he : e.IsOperation) (hb : IsPlain labels b) :
    IsPlain labels (.while loc e b)
  | doWhile {labels loc b : _} {e : Expr} (he : e.IsOperation) (hb : IsPlain labels b) :
    IsPlain labels (.doWhile loc b e)
  | with {labels loc b : _} {e : Expr} (he : e.IsOperation) (hb : IsPlain labels b) :
    IsPlain labels (.with loc e b)
  | for {labels loc b : _} {init : ForInit} {test update : Option Expr} (hinit : init.IsPlain)
    (htest : ∀ e ∈ test, e.IsOperation) (hupdate : ∀ e ∈ update, e.IsOperation)
    (hb : IsPlain labels b) : IsPlain labels (.for loc init test update b)
  | forIn {labels loc b : _} {id : Ident} {e : Expr} (hname : isIdentifierName id.name = true)
    (hword : Word.ofText? id.name = none) (he : e.IsOperation) (hb : IsPlain labels b) :
    IsPlain labels (.forIn loc (.pat (.ident id)) e b)
  | labeled {labels loc b : _} {label : Ident} (hname : isIdentifierName label.name = true)
    (hword : Word.ofText? label.name = none) (hlabel : label.name ∉ labels)
    (hb : IsPlain (label.name :: labels) b) : IsPlain labels (.labeled loc label b)

theorem exists_allConveyed (h : ∀ s ∈ ss, ∃ f, s.ConveyedBy labels f) :
    ∃ g, AllConveyed labels ss g := by
  induction ss with
  | nil => exact ⟨id, .nil⟩
  | cons s ss ih =>
    obtain ⟨f, hs⟩ := h s List.mem_cons_self
    obtain ⟨g, hss⟩ := ih fun s hs => h s (List.mem_cons_of_mem _ hs)
    exact ⟨_, .cons hs hss⟩

theorem IsPlain.exists_conveyed (h : s.IsPlain labels) : ∃ f, s.ConveyedBy labels f := by
  induction h with
  | expr he => exact exists_conveyed_expr he
  | empty => exact ⟨_, conveyed_empty⟩
  | block _ ih =>
    obtain ⟨g, hg⟩ := exists_allConveyed ih
    exact ⟨_, conveyed_block hg⟩
  | «if» he _ ih =>
    obtain ⟨ws, he⟩ := he.exists_conveyed
    obtain ⟨f, hc⟩ := ih
    exact ⟨_, conveyed_if he hc⟩
  | ifElse he _ _ ihc iha =>
    obtain ⟨ws, he⟩ := he.exists_conveyed
    obtain ⟨f, hc⟩ := ihc
    obtain ⟨g, ha⟩ := iha
    exact exists_conveyed_ifElse he hc ha
  | «while» he _ ih =>
    obtain ⟨ws, he⟩ := he.exists_conveyed
    obtain ⟨f, hb⟩ := ih
    exact ⟨_, conveyed_while he hb⟩
  | doWhile he _ ih =>
    obtain ⟨ws, he⟩ := he.exists_conveyed
    obtain ⟨f, hb⟩ := ih
    exact ⟨_, conveyed_doWhile he hb⟩
  | «with» he _ ih =>
    obtain ⟨ws, he⟩ := he.exists_conveyed
    obtain ⟨f, hb⟩ := ih
    exact ⟨_, conveyed_with he hb⟩
  | «for» hinit htest hupdate _ ih =>
    obtain ⟨f, hb⟩ := ih
    exact exists_conveyed_for hinit htest hupdate hb
  | forIn hname hword he _ ih =>
    obtain ⟨ws, he⟩ := he.exists_conveyed
    obtain ⟨f, hb⟩ := ih
    exact ⟨_, conveyed_forIn hname hword he hb⟩
  | labeled hname hword hlabel _ ih =>
    obtain ⟨f, hb⟩ := ih
    exact ⟨_, conveyed_labeled hname hword hlabel hb⟩

/-! ## Programs -/

theorem RereadAs.isStringAt_eq (h : (Stmt.expr loc e).RereadAs s) (hstring : ∀ lit, e ≠ .str lit)
    (span : Span) : isStringAt span s = false := by
  cases s with
  | expr loc' e' =>
    cases e' with
    | str lit =>
      have hshape : Expr.str ⟨.nowhere, lit.value, lit.raw⟩ = e.shape false := (Stmt.expr.inj h).2
      cases e with
      | str lit' => exact absurd rfl (hstring lit')
      | logical loc op a b =>
        obtain ⟨x, y, hxy⟩ := Expr.exists_regroup op (a.shape false) (b.shape false)
        rw [Expr.shape, hxy] at hshape
        cases hshape
      | assign loc op p v => cases p <;> cases hshape
      | _ => cases hshape
    | _ => rfl
  | _ => rfl

theorem AllConveyed.passes_statementList (h : AllConveyed [] ss g) (hn : (g []).length < n) :
    Passes {} (statementList .endOfInput (topItem (Grammar.levels n))) ((g []).map lexeme) []
      fun body => body.map (outline true) = ss.map (outline false) := by
  refine Turns.repeatUntil (h.turns Prod.fst (fun _ hx => by cases hx)
    (fun heq => by cases heq) hn ?_
    fun x hx => .last ((Passes.isAt_true rfl rfl).next (.pure ⟨_, rfl, hx⟩)))
  rintro s l ls ls' ⟨acc, head⟩ hopens hstring hitem
  obtain ⟨-, -, hend, hslash⟩ := Lexeme.ne_of_opens hopens
  have htop : Passes {} (topItem (Grammar.levels n)) (l :: ls) ls' s.RereadAs := by
    refine Passes.get.bind fun st hst => ?_
    rw [hst.1.facing.calm.module]
    exact hitem
  refine (Passes.isAt_ne hend nofun).next ((Passes.isAt_ne hend nofun).next ?_)
  by_cases hk : l.kind = .string
  · obtain ⟨loc, e, rfl, hlit⟩ := hstring hk
    refine (Passes.isAt_eq hslash hk).next ?_
    cases head with
    | false => exact htop.bind fun s' hs' => .pure ⟨_, rfl, s', rfl, hs'⟩
    | true =>
      refine Passes.get.bind fun st _ => htop.bind fun s' hs' => ?_
      rw [hs'.isStringAt_eq hlit]
      exact .pure ⟨_, rfl, s', rfl, hs'⟩
  · refine (Passes.isAt_ne hk nofun).next ?_
    rw [Bool.and_false]
    exact htop.bind fun s' hs' => .pure ⟨_, rfl, s', rfl, hs'⟩

end Stmt

end Laconic
