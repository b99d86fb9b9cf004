import Laconic.Proofs.Grammar.Reading

/-!
# Reading operators

From operands to whole expressions: what is read by one rule of the grammar is read by the
rules around it, if the token after it does not carry it on.  `TokenKind.pull` says how
tightly an expression must bind to end before a token.

The operators between operands are read by a loop.  `Loops` says that the loop comes to an
expression, at whatever precedence it was started; `Grouped` says the same for a chain of
`&&` or of `||` that follows what the loop has read so far, whose items are then grouped to
the left.
-/

namespace Laconic

open Parse (InfixOp)

/-! ## What ends an expression -/

/-- How tightly an expression must bind to end before a token. -/
def TokenKind.pull (k : TokenKind) : Nat :=
  match InfixOp.ofKind? false k with
  | some op => op.leftStrength
  | none =>
    if (Parse.updateOp? k).isSome then Strength.new
    else if (Parse.assignOp? k).isSome then Strength.conditional + 1
    else
      match k with
      | .punct p =>
        if p ∈ [.rightParen, .rightBracket, .rightBrace, .semicolon, .colon] then Strength.sequence
        else if p = .comma then Strength.assign
        else if p = .question then Strength.conditional + 1
        else if p ∈ [.dot, .leftBracket, .leftParen] then Strength.call
        else Strength.primary
      | _ => Strength.primary

namespace TokenKind

variable {k : TokenKind} {op : InfixOp}

theorem pull_infixOp (h : InfixOp.ofKind? false k = some op) : k.pull = op.leftStrength := by
  unfold pull
  rw [h]

theorem pull_update {op : UpdateOp} (h : Parse.updateOp? k = some op) : k.pull = Strength.new := by
  unfold Parse.updateOp? at h
  split at h
  · decide
  · decide
  · cases h

theorem pull_assign {op : AssignOp} (h : Parse.assignOp? k = some op) :
    k.pull = Strength.conditional + 1 := by
  have hall : ∀ p ∈ Punct.all, (Parse.assignOp? (.punct p)).isSome = true →
      pull (.punct p) = Strength.conditional + 1 := by
    decide
  cases k with
  | punct p => exact hall p (Scanning.mem_all p) (by rw [h]; rfl)
  | _ => cases h

theorem updateOp?_of_pull (h : k.pull ≤ Strength.postfixOp) : Parse.updateOp? k = none := by
  cases hop : Parse.updateOp? k with
  | none => rfl
  | some op =>
    rw [pull_update hop] at h
    exact absurd h (by decide)

theorem assignOp?_of_pull (h : k.pull ≤ Strength.assign) : Parse.assignOp? k = none := by
  cases hop : Parse.assignOp? k with
  | none => rfl
  | some op =>
    rw [pull_assign hop] at h
    exact absurd h (by decide)

theorem ne_of_pull {k' : TokenKind} {s : Nat} (h : k.pull ≤ s) (hk : s < k'.pull) : k ≠ k' := by
  rintro rfl
  omega

theorem strength_le_pull (h : InfixOp.ofKind? false k = some op) :
    op.strength ≤ k.pull ∧ k.pull ≤ Strength.postfixOp := by
  rw [pull_infixOp h]
  rcases op with op | op <;> cases op <;> decide

/-- Only a power binds as tightly as a power. -/
theorem precedence_of_pull {op' : InfixOp} (h : InfixOp.ofKind? false k = some op)
    (hk : k.pull ≤ op'.strength) : op.precedence ≤ op'.rightBound := by
  rw [pull_infixOp h] at hk
  revert hk
  rcases op with op | op <;> rcases op' with op' | op' <;> cases op <;> cases op' <;> decide

end TokenKind

namespace Parse

variable {s' : Nat} {w : Word}

/-- What follows begins with a token before which an expression of some strength ends. -/
def Follows (s : Nat) (ls : List Lexeme) : Prop := ∃ l t, ls = l :: t ∧ l.kind.pull ≤ s

theorem Follows.mono {s : Nat} {ls : List Lexeme} (h : Follows s ls) (hs : s ≤ s') :
    Follows s' ls := by
  obtain ⟨l, t, rfl, hl⟩ := h
  exact ⟨l, t, rfl, Nat.le_trans hl hs⟩

variable {t : Targets} {l l' : Lexeme} {ls ls₁ ls₂ ls' : List Lexeme} {e e₁ e₂ x : Expr}
  {s least n : Nat} {op : InfixOp} {g : Grammar} {noIn b : Bool} {start : Position}
  {P Q : Expr → Prop}

/-! ## Readers -/

/-- A rule of the grammar reads some lexemes as an expression, where something follows that
ends an expression of some strength; `exact` says whether the token after it has surely been
read as it is. -/
def Reads (exact : Bool) (read : Grammar → Parse Expr) (s : Nat) (e : Expr)
    (ls₁ : List Lexeme) : Prop :=
  ∀ ⦃t : Targets⦄ ⦃n : Nat⦄ ⦃ls : List Lexeme⦄, Follows s ls → (ls₁ ++ ls).length < n →
    Passes t (read (Grammar.levels n)) (ls₁ ++ ls) ls e.ReadsAs false exact

/-- One round of the loop that reads operators and operands. -/
def opStep (g : Grammar) (least : Nat) (noIn : Bool) (start : Position) (left : Expr) :
    Parse (Expr ⊕ Expr) := do
  regexpAsSlash
  match InfixOp.ofKind? noIn (← kind) with
  | some op =>
    if op.precedence ≤ least then return .inr left
    discard bump
    let right ← g.binary op.rightBound noIn
    return .inl (op.apply (← spanFrom start) left right)
  | none => return .inr left

def operands (g : Grammar) (least : Nat) (noIn : Bool) (start : Position) : Parse Expr := do
  let first ← unary g
  if isArrow first then return first
  repeatUntil (opStep g least noIn start) first

/-- Where the loop over operators has come to an expression with a property, it comes from
some lexemes to others. -/
def Resumes (t : Targets) (least n : Nat) (start : Position) (S : Expr → Prop)
    (ls ls' : List Lexeme) (P : Expr → Prop) (b : Bool) : Prop :=
  ∀ x, S x → Turns t (opStep (Grammar.levels n) least false start) x ls ls' P false b

/-- The loop over operators comes to an expression. -/
def Loops (s : Nat) (e : Expr) (ls₁ : List Lexeme) : Prop :=
  ∀ ⦃t : Targets⦄ ⦃least n : Nat⦄ ⦃start : Position⦄ ⦃ls ls' : List Lexeme⦄ ⦃P : Expr → Prop⦄
    ⦃b : Bool⦄, Strength.binary + least < s → Follows (min s Strength.postfixOp) ls →
    (ls₁ ++ ls).length < n → Resumes t least n start e.ReadsAs ls ls' P b →
    Passes t (operands (Grammar.levels n) least false start) (ls₁ ++ ls) ls' P false b

/-- Where the loop over operators has come to an expression `x`, it comes to the chain of `x`
and of the items of `e`. -/
def Grouped (op : LogicalOp) (e : Expr) (ls₁ : List Lexeme) : Prop :=
  ∀ ⦃t : Targets⦄ ⦃least n : Nat⦄ ⦃start : Position⦄ ⦃l : Lexeme⦄ ⦃ls ls' : List Lexeme⦄
    ⦃P : Expr → Prop⦄ ⦃b : Bool⦄ ⦃x : Expr⦄,
    InfixOp.ofKind? false l.kind = some (.logical op) → least < op.precedence →
    Follows (InfixOp.logical op).strength ls → (l :: ls₁ ++ ls).length < n →
    Resumes t least n start
      (fun y => y.shape true = Expr.regroup op (x.shape true) (e.shape false)) ls ls' P b →
    Turns t (opStep (Grammar.levels n) least false start) x (l :: ls₁ ++ ls) ls' P false b

/-! ## The loop over operators -/

theorem turns_end (hl : l.kind ≠ .regexp)
    (hend : ∀ op, InfixOp.ofKind? noIn l.kind = some op → op.precedence ≤ least) (hx : P x) :
    Turns t (opStep g least noIn start) x (l :: ls) (l :: ls) P false true := by
  refine .last ((Passes.regexpAsSlash hl).bind fun _ _ => Passes.kind_exact.next ?_)
  cases hop : InfixOp.ofKind? noIn l.kind with
  | none => exact .pure ⟨x, rfl, hx⟩
  | some op =>
    show Passes t (if op.precedence ≤ least then _ else _) _ _ _ _ _
    rw [if_pos (hend op hop)]
    exact .pure ⟨x, rfl, hx⟩

theorem regexp_lt_pull : Strength.call < TokenKind.regexp.pull := by decide

theorem Loops.binary (h : Loops s e ls₁) (hs : Strength.binary + least < s)
    (hs' : s' ≤ min s Strength.postfixOp)
    (hend : ∀ (k : TokenKind) op, k.pull ≤ s' → InfixOp.ofKind? false k = some op →
      op.precedence ≤ least) : Reads true (binary · least false) s' e ls₁ := by
  intro t n _ hfollows hn
  have hfollows' := hfollows.mono hs'
  obtain ⟨l, rest, rfl, hl⟩ := hfollows
  have hregexp : l.kind ≠ .regexp := by
    refine TokenKind.ne_of_pull hl (Nat.lt_of_le_of_lt ?_ regexp_lt_pull)
    exact hs'.trans ((Nat.min_le_right _ _).trans (by decide))
  exact Passes.start.bind fun _ _ => h hs hfollows' hn fun _ hx =>
    turns_end hregexp (hend _ · hl) hx

theorem strength_bounds (op : InfixOp) : Strength.binary + op.rightBound < op.rightStrength ∧
    op.strength ≤ op.rightStrength ∧ op.strength ≤ op.leftStrength ∧
    op.leftStrength ≤ Strength.postfixOp ∧ op.strength < Strength.unary := by
  rcases op with op | op <;> cases op <;> decide

theorem Loops.right (h : Loops s e ls₁) (hs : op.rightStrength ≤ s) :
    Reads true (Parse.binary · op.rightBound false) op.strength e ls₁ := by
  have hbounds := strength_bounds op
  refine h.binary (by omega) ?_ fun k op' hk hop' => TokenKind.precedence_of_pull hop' hk
  exact Nat.le_min.mpr ⟨by omega, by omega⟩

/-- One more operator and its operand on the right. -/
theorem turns_right (h : Reads true (binary · op.rightBound false) op.strength e ls₁)
    (hop : InfixOp.ofKind? false l.kind = some op) (hleast : least < op.precedence)
    (hfollows : Follows op.strength ls) (hn : (l :: ls₁ ++ ls).length < n)
    (hnext : Resumes t least n start
      (fun y => ∃ loc e', y = op.apply loc x e' ∧ e.ReadsAs e') ls ls'
      P b) :
    Turns t (opStep (Grammar.levels n) least false start) x (l :: ls₁ ++ ls) ls' P false b := by
  obtain ⟨m, rfl⟩ : ∃ m, n = m + 1 := ⟨n - 1, by omega⟩
  have hne : l.kind ≠ .regexp := by
    intro heq
    rw [heq] at hop
    cases hop
  refine .more (by grind) (Passes.loosen (?_ : Passes _ _ _ _ _ _ true)) hnext
  refine (Passes.regexpAsSlash hne).bind fun _ _ => Passes.kind_exact.next ?_
  rw [hop]
  show Passes t (if op.precedence ≤ least then _ else _) _ _ _ _ _
  rw [if_neg (by omega)]
  exact Passes.bump_exact.discard.bind fun _ _ =>
    (h hfollows (by simpa using hn)).bind fun e' he' =>
    (Passes.spanFrom _).bind fun loc _ => .pure ⟨_, rfl, loc, e', rfl, he'⟩

theorem Loops.append (h₁ : Loops s e₁ ls₁) (hs : op.leftStrength ≤ s)
    (h₂ : Reads true (Parse.binary · op.rightBound false) op.strength e₂ ls₂)
    (hop : InfixOp.ofKind? false l.kind = some op) (loc : Span) :
    Loops op.strength (op.apply loc e₁ e₂) (ls₁ ++ l :: ls₂) := by
  intro t least n start ls ls' P b hleast hfollows hn hnext
  have hbounds := strength_bounds op
  rw [List.append_assoc] at hn ⊢
  have hpull : l.kind.pull ≤ min s Strength.postfixOp := by
    rw [TokenKind.pull_infixOp hop]
    exact Nat.le_min.mpr ⟨hs, hbounds.2.2.2.1⟩
  refine h₁ (by omega) ⟨l, ls₂ ++ ls, rfl, hpull⟩ hn fun x hx => ?_
  have hprecedence : least < op.precedence := Nat.lt_of_add_lt_add_left hleast
  refine turns_right h₂ hop hprecedence (hfollows.mono (Nat.min_le_left _ _)) (by grind) ?_
  rintro _ ⟨loc', e', rfl, he'⟩
  exact hnext _ (hx.apply he' loc loc')

theorem Grouped.single {op : LogicalOp} (h : Reads true
      (binary · (InfixOp.logical op).rightBound false) (InfixOp.logical op).strength e ls₁) :
    Grouped op e ls₁ := by
  intro t least n start l ls ls' P b x hop hleast hfollows hn hnext
  refine turns_right h hop hleast hfollows hn ?_
  rintro _ ⟨loc, e', rfl, he'⟩
  refine hnext _ ?_
  rw [← he']
  rfl

variable {op : LogicalOp}

theorem follows_logical (hop : InfixOp.ofKind? false l.kind = some (.logical op)) :
    Follows (InfixOp.logical op).strength (l :: ls) := by
  refine ⟨l, ls, rfl, ?_⟩
  rw [TokenKind.pull_infixOp hop]
  exact Nat.le_refl _

theorem Grouped.append (hne : op ≠ .nullish) (h₁ : Grouped op e₁ ls₁) (h₂ : Grouped op e₂ ls₂)
    (hop : InfixOp.ofKind? false l.kind = some (.logical op)) (loc : Span) :
    Grouped op (.logical loc op e₁ e₂) (ls₁ ++ l :: ls₂) := by
  intro t least n start l' ls ls' P b x hop' hleast hfollows hn hnext
  have hassoc : l' :: (ls₁ ++ l :: ls₂) ++ ls = l' :: ls₁ ++ (l :: ls₂ ++ ls) := by
    simp
  rw [hassoc] at hn ⊢
  refine h₁ hop' hleast (follows_logical hop) hn fun y hy => ?_
  refine h₂ hop hleast hfollows (by grind) fun z hz => hnext z ?_
  show z.shape true = _
  rw [hz, hy, Expr.regroup_assoc hne, Expr.shape]

theorem Loops.group (h₁ : Loops s e₁ ls₁) (hs : (InfixOp.logical op).strength ≤ s)
    (h₂ : Grouped op e₂ ls₂) (hop : InfixOp.ofKind? false l.kind = some (.logical op))
    (loc : Span) : Loops (InfixOp.logical op).strength (.logical loc op e₁ e₂)
      (ls₁ ++ l :: ls₂) := by
  intro t least n start ls ls' P b hleast hfollows hn hnext
  rw [List.append_assoc] at hn ⊢
  have hbounds := strength_bounds (.logical op)
  have hfollows₁ : Follows (min s Strength.postfixOp) (l :: ls₂ ++ ls) :=
    (follows_logical hop).mono (Nat.le_min.mpr ⟨hs, by omega⟩)
  refine h₁ (by omega) hfollows₁ hn fun x hx => ?_
  refine h₂ hop (Nat.lt_of_add_lt_add_left hleast) (hfollows.mono (Nat.min_le_left _ _)) (by grind)
    fun y hy => hnext y ?_
  unfold Expr.ReadsAs
  rw [hy, hx, Expr.shape]

/-! ## Choices -/

theorem question_pull : TokenKind.pull (.punct .question) = Strength.conditional + 1 := by decide

theorem passes_conditional (h : Passes t (binary g 0 noIn) ls₁ (l :: ls) P false true)
    (hl : l.kind ≠ .punct .question) : Passes t (conditional g noIn) ls₁ (l :: ls) P false true :=
  Passes.start.bind fun _ _ => h.bind fun _ he => (Passes.isPunct_ne hl).next (.pure he)

theorem Reads.choice {c a : Expr} {lsc lsa : List Lexeme}
    (h : Reads true (binary · 0 false) (Strength.conditional + 1) e ls₁)
    (harrow : isArrow e = false) (hl : l.kind = .punct .question)
    (hc : Reads false (assign · false) Strength.assign c lsc) (hl' : l'.kind = .punct .colon)
    (ha : Reads false (assign · false) Strength.assign a lsa) (loc : Span) :
    Reads false (conditional · false) Strength.assign (.conditional loc e c a)
      (ls₁ ++ l :: lsc ++ l' :: lsa) := by
  intro t n ls hfollows hn
  obtain ⟨m, rfl⟩ : ∃ m, n = m + 1 := ⟨n - 1, by omega⟩
  have hassoc : ls₁ ++ l :: lsc ++ l' :: lsa ++ ls = ls₁ ++ l :: (lsc ++ l' :: (lsa ++ ls)) := by
    simp
  rw [hassoc] at hn ⊢
  refine Passes.start.bind fun _ _ => (h ⟨l, _, rfl, by rw [hl, question_pull]⟩ hn).bind
    fun test htest => (Passes.isPunct_eq hl rfl).next ?_
  rw [htest.isArrow_eq, harrow]
  refine Passes.bump_exact.discard.bind fun _ _ =>
    (hc ⟨l', _, rfl, by rw [hl']; decide⟩ (by grind)).bind fun c' hc' =>
    (Passes.expectPunct hl' rfl).bind fun _ _ => (ha hfollows (by grind)).bind fun a' ha' =>
    (Passes.spanFrom _).bind fun _ _ => .pure ?_
  unfold Expr.ReadsAs
  rw [Expr.shape, Expr.shape, htest, hc', ha']

/-! ## Assignments -/

theorem word_of_starts (h : (Lexeme.word w).starts = true) :
    w = .this ∨ w = .new ∨ w = .typeof ∨ w = .void ∨ w = .delete := by
  simpa [Lexeme.starts] using h

theorem kind_ne_of_starts (h : l.starts = true) (hw : w ∉ [.this, .new, .typeof, .void, .delete]) :
    l.kind ≠ .word w := by
  intro heq
  cases l with
  | word w' =>
    cases heq
    exact hw (by simpa using word_of_starts h)
  | _ => cases heq

theorem isSlash_of_starts (h : l.starts = true) : isSlash l = false := by
  cases l with
  | punct p =>
    have hall : ∀ p ∈ Punct.all, (Lexeme.punct p).starts = true → isSlash (.punct p) = false := by
      decide
    exact hall p (Scanning.mem_all p) h
  | _ => rfl

theorem isSlash_of_pull (h : l.kind.pull ≤ Strength.assign) : isSlash l = false := by
  have hslash : l.kind ≠ .punct .slash := TokenKind.ne_of_pull h (by decide)
  have hslashEqual : l.kind ≠ .punct .slashEqual := TokenKind.ne_of_pull h (by decide)
  simp [isSlash, hslash, hslashEqual]

theorem Passes.isName (hl : l.starts = true) :
    Passes t isName (l :: ls) (l :: ls) (· = (l.kind == .identifier)) := by
  refine Passes.get.bind fun st hst => ?_
  rw [Token.kind, hst.1.lexeme_eq (isSlash_of_starts hl)]
  cases l with
  | word w => rcases word_of_starts hl with rfl | rfl | rfl | rfl | rfl <;> exact .pure rfl
  | _ => exact .pure rfl

theorem Passes.nameArrow (hl : l.starts = true) :
    Passes t (nameArrow g noIn) (l :: l' :: ls) (l :: l' :: ls) (· = none) := by
  refine .of_arrowless fun harrow => ?_
  have hasync : Passes t (isWord .async) (l :: l' :: ls) (l :: l' :: ls) (· = false) :=
    .isWord_ne (kind_ne_of_starts hl (by decide))
  refine Passes.start.bind fun _ _ => (Passes.isName hl).next ?_
  cases hname : l.kind == .identifier with
  | false => exact hasync.next (.pure rfl)
  | true =>
    refine (Passes.peek? (isSlash_of_starts hl)).bind ?_
    rintro _ ⟨token, rfl, hkind⟩
    have hne : token.kind ≠ .punct .arrow := by
      rcases hkind with heq | ⟨heq, -⟩
      · rw [heq]
        intro heq
        cases l' with
        | punct p =>
          cases heq
          exact harrow _ (by simp) rfl
        | _ => cases heq
      · rw [heq]
        decide
    rw [Option.any_some, beq_eq_false_iff_ne.mpr hne]
    exact hasync.next (.pure rfl)

def assignRest (g : Grammar) (noIn : Bool) (start : Position) (left : Expr) : Parse Expr := do
  match assignOp? (← kind) with
  | some op =>
    let target ← assignTarget start op left
    discard bump
    let value ← g.assign noIn
    return .assign (← spanFrom start) op target value
  | none => return left

theorem passes_assignRest (hl : isSlash l = false) (h : assignOp? l.kind = none) (hx : P x) :
    Passes t (assignRest g noIn start x) (l :: ls) (l :: ls) P b b := by
  refine (Passes.kind hl).next ?_
  rw [h]
  exact .pure hx

def Starts (ls : List Lexeme) : Prop := ∃ l t, ls = l :: t ∧ l.starts = true

theorem Starts.append (h : Starts ls₁) (ls : List Lexeme) : Starts (ls₁ ++ ls) := by
  obtain ⟨l, rest, rfl, hl⟩ := h
  exact ⟨l, rest ++ ls, rfl, hl⟩

theorem passes_assign (hfirst : Starts ls₁) (hne : ls ≠ [])
    (h : Passes t (conditional g noIn) (ls₁ ++ ls) ls₂ e.ReadsAs false b)
    (harrow : isArrow e = false)
    (hrest : ∀ start x, e.ReadsAs x → Passes t (assignRest g noIn start x) ls₂ ls' Q b) :
    Passes t (assign g noIn) (ls₁ ++ ls) ls' Q := by
  obtain ⟨l, rest, rfl, hl⟩ := hfirst
  obtain ⟨l', rest', heq⟩ := List.exists_cons_of_ne_nil
    (List.append_ne_nil_of_right_ne_nil rest hne)
  rw [List.cons_append, heq] at h ⊢
  refine Passes.start.bind fun start _ =>
    (Passes.isWord_ne (kind_ne_of_starts hl (by decide))).next (Passes.get.bind fun _ _ =>
    (Passes.nameArrow hl).next (h.bind fun x hx => ?_))
  rw [hx.isArrow_eq, harrow]
  exact hrest start x hx

theorem Follows.ne_nil (h : Follows s ls) : ls ≠ [] := by
  obtain ⟨l, rest, rfl, -⟩ := h
  exact List.cons_ne_nil l rest

theorem Reads.assign (hfirst : Starts ls₁)
    (h : Reads false (conditional · false) Strength.assign e ls₁) (harrow : isArrow e = false) :
    Reads false (Parse.assign · false) Strength.assign e ls₁ := by
  intro t n ls hfollows hn
  refine passes_assign hfirst hfollows.ne_nil (h hfollows hn) harrow fun _ _ hx => ?_
  obtain ⟨l, rest, rfl, hpull⟩ := hfollows
  exact passes_assignRest (isSlash_of_pull hpull) (TokenKind.assignOp?_of_pull hpull) hx

theorem Passes.assignTarget (h : isSimpleTarget false x = true) (op : AssignOp) :
    Passes t (assignTarget start op x) ls ls (· = .expr x) b b := by
  refine Passes.isStrict.next ?_
  cases x with
  | ident id | member loc optional o p => simpa [h] using .pure rfl
  | _ => cases h

theorem Reads.assignment {v : Expr} {lsv : List Lexeme} {op : AssignOp} (hfirst : Starts ls₁)
    (h : Reads true (binary · 0 false) (Strength.conditional + 1) e ls₁)
    (harrow : isArrow e = false) (htarget : isSimpleTarget false e = true)
    (hop : assignOp? l.kind = some op)
    (hv : Reads false (Parse.assign · false) Strength.assign v lsv)
    (loc : Span) :
    Reads false (Parse.assign · false) Strength.assign (.assign loc op (.expr e) v)
      (ls₁ ++ l :: lsv) := by
  intro t n ls hfollows hn
  obtain ⟨m, rfl⟩ : ∃ m, n = m + 1 := ⟨n - 1, by omega⟩
  rw [List.append_assoc] at hn ⊢
  have hquestion : l.kind ≠ .punct .question := by
    intro heq
    rw [heq] at hop
    cases hop
  have hleft := h (t := t) ⟨l, lsv ++ ls, rfl, Nat.le_of_eq (TokenKind.pull_assign hop)⟩ hn
  refine passes_assign hfirst (List.cons_ne_nil _ _) (passes_conditional hleft hquestion) harrow
    fun start x hx => Passes.kind_exact.next ?_
  rw [hop]
  refine (Passes.assignTarget (hx.isSimpleTarget_eq.trans htarget) op).next
    (Passes.bump_exact.discard.bind fun _ _ => (hv hfollows (by grind)).bind fun v' hv' =>
    (Passes.spanFrom _).bind fun _ _ => .pure ?_)
  unfold Expr.ReadsAs
  rw [Expr.shape, Expr.shape, hx, hv']

/-! ## Expressions -/

/-- Some lexemes are read as an expression of some strength, by every rule that reads such
expressions. -/
structure ReadsExpr (s : Nat) (e : Expr) (ls : List Lexeme) : Prop where
  first : Starts ls
  unary : Strength.unary ≤ s → Reads false unary (min s Strength.postfixOp) e ls
  loops : Loops s e ls
  grouped : ∀ op, op ≠ .nullish → (InfixOp.logical op).strength ≤ s → Grouped op e ls
  assign : Reads false (assign · false) Strength.assign e ls

namespace ReadsExpr

theorem binary_of_loops (h : Loops s e ls₁) (hs : Strength.binary < s) :
    Reads true (binary · 0 false) (Strength.conditional + 1) e ls₁ := by
  refine h.binary hs (Nat.le_min.mpr ⟨Nat.le_trans (by decide) hs, by decide⟩) fun k op hk hop => ?_
  have hstrength := TokenKind.strength_le_pull hop
  have hbinary : Strength.binary ≤ op.strength := Nat.le_add_right _ _
  have hlt : Strength.conditional + 1 < Strength.binary := by decide
  omega

theorem assign_of_loops (hfirst : Starts ls₁) (h : Loops s e ls₁) (hs : Strength.binary < s)
    (harrow : isArrow e = false) : Reads false (Parse.assign · false) Strength.assign e ls₁ := by
  refine Reads.assign hfirst (fun t n _ hfollows hn => ?_) harrow
  obtain ⟨l, rest, rfl, hpull⟩ := hfollows
  have hquestion : l.kind ≠ .punct .question :=
    TokenKind.ne_of_pull hpull (by rw [question_pull]; decide)
  refine (passes_conditional (binary_of_loops h hs ⟨l, rest, rfl, ?_⟩ hn) hquestion).loosen
  exact Nat.le_trans hpull (by decide)

theorem of_loops (hfirst : Starts ls₁) (h : Loops s e ls₁) (hs : Strength.binary < s)
    (hs' : s < Strength.unary) (harrow : isArrow e = false)
    (hgrouped : ∀ op, op ≠ .nullish → (InfixOp.logical op).strength = s → Grouped op e ls₁) :
    ReadsExpr s e ls₁ where
  first := hfirst
  unary hunary := absurd hunary (by omega)
  loops := h
  grouped op hop hle := by
    by_cases heq : (InfixOp.logical op).strength = s
    · exact hgrouped op hop heq
    · refine .single (h.right ?_)
      have hright : (InfixOp.logical op).rightStrength = (InfixOp.logical op).strength + 1 := rfl
      omega
  assign := assign_of_loops hfirst h hs harrow

theorem loops_of_unary (h : Reads false Parse.unary (min s Strength.postfixOp) e ls₁)
    (harrow : isArrow e = false) : Loops s e ls₁ := by
  intro t least n start ls ls' P b hleast hfollows hn hnext
  refine (h hfollows hn).bind fun x hx => ?_
  rw [hx.isArrow_eq, harrow]
  exact (hnext x hx).repeatUntil

theorem of_unary (hfirst : Starts ls₁) (hs : Strength.unary ≤ s)
    (h : Reads false Parse.unary (min s Strength.postfixOp) e ls₁) (harrow : isArrow e = false) :
    ReadsExpr s e ls₁ where
  first := hfirst
  unary _ := h
  loops := loops_of_unary h harrow
  grouped op hop hle := by
    have hbounds := strength_bounds (.logical op)
    refine .single ((loops_of_unary h harrow).right ?_)
    have hright : (InfixOp.logical op).rightStrength = (InfixOp.logical op).strength + 1 := rfl
    omega
  assign := assign_of_loops hfirst (loops_of_unary h harrow) (Nat.lt_of_lt_of_le (by decide) hs)
    harrow

theorem of_assign (hfirst : Starts ls₁) (hs : s ≤ Strength.conditional)
    (h : Reads false (Parse.assign · false) Strength.assign e ls₁) : ReadsExpr s e ls₁ := by
  have hlt : Strength.conditional < Strength.binary := by decide
  refine ⟨hfirst, fun hunary => absurd (Nat.le_trans hunary hs) (by decide), ?_, ?_, h⟩
  · intro t least n start ls ls' P b hleast
    omega
  · intro op _ hle
    have hbinary : Strength.binary ≤ (InfixOp.logical op).strength := Nat.le_add_right _ _
    omega

end ReadsExpr

end Parse

end Laconic
