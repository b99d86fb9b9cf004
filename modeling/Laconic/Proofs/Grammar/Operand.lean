import Laconic.Proofs.Grammar.Operator

/-!
# Reading operands

Literals, names and expressions in parentheses, then the accesses and calls after them and
the `new` expressions around them.

The accesses and calls after an operand are read by a loop, which takes calls only outside
the callee of a `new`.  `Chained` says that the loop comes to an expression.
-/

namespace Laconic.Parse

open Grammar

variable {t : Targets} {l l' : Lexeme} {ls ls₁ ls₂ ls' : List Lexeme} {e e' x : Expr}
  {es : List Expr} {s n : Nat} {b : Bool} {g : Grammar} {start : Position} {loc : Span} {p : Punct}
  {acc : List Expr} {id : Ident} {op : UpdateOp}

/-! ## Lists of expressions -/

/-- Some lexemes are read as expressions with commas between them. -/
inductive ReadsItems : List Expr → List Lexeme → Prop where
  | nil : ReadsItems [] []
  | last {s : Nat} {e : Expr} {ls : List Lexeme} (h : ReadsExpr s e ls) : ReadsItems [e] ls
  | more {s : Nat} {e : Expr} {es : List Expr} {l : Lexeme} {ls ls' : List Lexeme}
    (h : ReadsExpr s e ls) (hl : l.kind = .punct .comma) (hne : es ≠ [])
    (hes : ReadsItems es ls') : ReadsItems (e :: es) (ls ++ l :: ls')

theorem comma_follows (hl : l.kind = .punct .comma) : Follows Strength.assign (l :: ls) :=
  ⟨l, ls, rfl, by rw [hl]; decide⟩

theorem close_follows (hl : l.kind = .punct p)
    (hp : p ∈ [.rightParen, .rightBracket, .rightBrace, .semicolon, .colon]) :
    Follows s (l :: ls) := by
  refine ⟨l, ls, rfl, ?_⟩
  have hall : ∀ p ∈ [Punct.rightParen, .rightBracket, .rightBrace, .semicolon, .colon],
      TokenKind.pull (.punct p) = 0 := by
    decide
  rw [hl, hall p hp]
  exact Nat.zero_le s

theorem kind_ne_of_startsPunct (h : l.starts = true) (hp : (Lexeme.punct p).starts = false) :
    l.kind ≠ .punct p := by
  intro heq
  cases l with
  | punct p' =>
    cases heq
    rw [hp] at h
    cases h
  | _ => cases heq

theorem Starts.isPunct_false (h : Starts ls₁) (hp : (Lexeme.punct p).starts = false) :
    Passes t (isPunct p) (ls₁ ++ ls) (ls₁ ++ ls) (· = false) := by
  obtain ⟨l, rest, rfl, hl⟩ := h
  exact .isPunct_ne (kind_ne_of_startsPunct hl hp)

theorem ReadsExpr.spreadable (h : ReadsExpr s e ls₁) (hfollows : Follows Strength.assign ls)
    (hn : (ls₁ ++ ls).length < n) :
    Passes t (spreadable (levels (n + 1))) (ls₁ ++ ls) ls e.ReadsAs :=
  (h.first.isPunct_false (by decide)).next (h.assign hfollows hn)

theorem ReadsItems.first (h : ReadsItems es ls₁) (hne : es ≠ []) : Starts ls₁ := by
  cases h with
  | nil => exact absurd rfl hne
  | last h => exact h.first
  | more h hl hne' hes => exact h.first.append _

/-- The state of a loop that reads items, last first, after it has read some more. -/
def Collects (es acc acc' : List Expr) : Prop :=
  ∃ es', acc' = es'.reverse ++ acc ∧ Expr.ListReadsAs es es'

theorem Collects.nil (acc : List Expr) : Collects [] acc acc := ⟨[], rfl, rfl⟩

theorem Collects.cons {acc' : List Expr} (h : e.ReadsAs e') (hes : Collects es (e' :: acc) acc') :
    Collects (e :: es) acc acc' := by
  obtain ⟨es', rfl, hes'⟩ := hes
  refine ⟨e' :: es', ?_, hes'.cons h⟩
  rw [List.reverse_cons, List.append_assoc]
  rfl

section Loop

variable {σ α : Type} {step : σ → Parse (σ ⊕ α)} {f : List Expr → σ} {P : α → Prop}

/-- The rounds of a loop that reads an item in each, with the comma after it unless it is the
last one. -/
theorem ReadsItems.turns (h : ReadsItems es ls₁)
    (hlast : ∀ {s : Nat} {e : Expr} {ls₁ : List Lexeme} {acc : List Expr},
      ReadsExpr s e ls₁ → (ls₁ ++ l :: ls).length < n →
      Passes t (step (f acc)) (ls₁ ++ l :: ls) (l :: ls)
        fun x => ∃ s', x = .inl s' ∧ ∃ e', s' = f (e' :: acc) ∧ e.ReadsAs e')
    (hmore : ∀ {s : Nat} {e : Expr} {comma : Lexeme} {ls₁ ls₂ : List Lexeme} {acc : List Expr},
      ReadsExpr s e ls₁ → comma.kind = .punct .comma → Starts ls₂ →
      (ls₁ ++ comma :: ls₂).length < n →
      Passes t (step (f acc)) (ls₁ ++ comma :: ls₂) ls₂
        fun x => ∃ s', x = .inl s' ∧ ∃ e', s' = f (e' :: acc) ∧ e.ReadsAs e')
    (hn : (ls₁ ++ l :: ls).length < n) {acc : List Expr}
    (hend : ∀ acc', Collects es acc acc' → Turns t step (f acc') (l :: ls) ls' P) :
    Turns t step (f acc) (ls₁ ++ l :: ls) ls' P := by
  induction h generalizing acc with
  | nil => exact hend acc (.nil acc)
  | @last s e ls₁ h =>
    obtain ⟨l₁, rest, rfl, -⟩ := id h.first
    refine .more (by grind) (hlast h hn) ?_
    rintro _ ⟨e', rfl, he'⟩
    exact hend _ ((Collects.nil _).cons he')
  | @more s e es comma ls₁ ls₂ h hcomma hne hes ih =>
    rw [List.append_assoc] at hn ⊢
    refine .more (by simp; omega) (hmore h hcomma ((hes.first hne).append _) hn) ?_
    rintro _ ⟨e', rfl, he'⟩
    exact ih (by grind) fun acc' hacc => hend acc' (hacc.cons he')

end Loop

def listStep (close : Punct) (item : Parse Expr) (acc : List Expr) :
    Parse (List Expr ⊕ List Expr) := do
  if ← isPunct close then return .inr acc
  let a ← item
  if !(← isPunct close) then expectPunct .comma
  return .inl (a :: acc)

theorem ReadsItems.arguments (h : ReadsItems es ls₁)
    (hn : (ls₁ ++ .punct .rightParen :: ls).length + 1 < n) :
    Passes t (arguments (levels n))
      (.punct .leftParen :: (ls₁ ++ .punct .rightParen :: ls)) ls (Expr.ListReadsAs es) := by
  obtain ⟨m, rfl⟩ : ∃ m, n = m + 1 := ⟨n - 1, by omega⟩
  have hturns : Turns t (listStep .rightParen (spreadable (levels (m + 1)))) []
      (ls₁ ++ .punct .rightParen :: ls) (.punct .rightParen :: ls) (Collects es []) := by
    refine h.turns (f := id) (n := m) (fun h hn => ?_) (fun h hcomma _ hn => ?_) (by omega)
      fun acc hacc => .last ((Passes.isPunct_eq rfl rfl).next (.pure ⟨acc, rfl, hacc⟩))
    · refine (h.first.isPunct_false (by decide)).next
        ((h.spreadable (close_follows rfl (by decide)) hn).bind fun e' he' => ?_)
      exact (Passes.isPunct_eq rfl rfl).next (.pure ⟨_, rfl, e', rfl, he'⟩)
    · refine (h.first.isPunct_false (by decide)).next
        ((h.spreadable (comma_follows hcomma) hn).bind fun e' he' => ?_)
      exact (Passes.isPunct_ne (by rw [hcomma]; decide)).next
        ((Passes.expectPunct hcomma rfl).bind fun _ _ => .pure ⟨_, rfl, e', rfl, he'⟩)
  refine (Passes.expectPunct rfl rfl).bind fun _ _ => hturns.repeatUntil.bind fun acc hacc =>
    (Passes.bump rfl).discard.bind fun _ _ => .pure ?_
  obtain ⟨es', rfl, hes'⟩ := hacc
  rwa [List.append_nil, List.reverse_reverse]

theorem ReadsItems.parenthesized (h : ReadsItems es ls₁)
    (hn : (ls₁ ++ .punct .rightParen :: ls).length < n) :
    Passes t (parenthesized (levels (n + 1))) (ls₁ ++ .punct .rightParen :: ls)
      (.punct .rightParen :: ls)
      fun p => ∃ es', p = ⟨es'.reverse, none, none⟩ ∧ Expr.ListReadsAs es es' := by
  refine Turns.repeatUntil (h.turns (f := fun acc => (⟨acc, none, none⟩ : Parenthesized))
    (fun h hn => ?_) (fun h hcomma hfirst hn => ?_) hn fun acc hacc => ?_)
  · refine (h.first.isPunct_false (by decide)).next ((h.first.isPunct_false (by decide)).next
      ((h.assign (close_follows rfl (by decide)) hn).bind fun e' he' => ?_))
    exact (Passes.isPunct_eq rfl rfl).next (.pure ⟨_, rfl, e', rfl, he'⟩)
  · refine (h.first.isPunct_false (by decide)).next ((h.first.isPunct_false (by decide)).next
      ((h.assign (comma_follows hcomma) hn).bind fun e' he' => ?_))
    refine (Passes.isPunct_ne (by rw [hcomma]; decide)).next
      ((Passes.expect (by rw [isSlash, hcomma]; rfl) hcomma).bind fun _ _ => ?_)
    obtain ⟨l', rest, heq, hl'⟩ := hfirst
    rw [heq]
    exact (Passes.isPunct_ne (kind_ne_of_startsPunct hl' (by decide))).next
      (.pure ⟨_, rfl, e', rfl, he'⟩)
  · obtain ⟨es', rfl, hes'⟩ := hacc
    refine .last ((Passes.isPunct_eq rfl rfl).next (.pure ⟨_, rfl, es', ?_, hes'⟩))
    rw [List.append_nil]

/-- One round of the loop that reads expressions after commas. -/
def commaStep (assign : Parse Expr) (acc : List Expr) : Parse (List Expr ⊕ List Expr) := do
  if ← eatPunct .comma then return .inl ((← assign) :: acc) else return .inr acc.reverse

/-- The loop over the items after the first one. -/
theorem ReadsItems.turns_comma {P : List Expr → Prop} (h : ReadsItems es ls₁) (hne : es ≠ [])
    (hl : l.kind = .punct .comma) (hfollows : Follows Strength.assign ls)
    (hn : (l :: ls₁ ++ ls).length < n)
    (hend : ∀ acc', Collects es acc acc' →
      Turns t (commaStep (assign (levels n) false)) acc' ls ls' P) :
    Turns t (commaStep (assign (levels n) false)) acc (l :: ls₁ ++ ls) ls' P := by
  have hround : ∀ {s : Nat} {e : Expr} {l : Lexeme} {ls₁ ls : List Lexeme} {acc : List Expr},
      ReadsExpr s e ls₁ → l.kind = .punct .comma → Follows Strength.assign ls →
      (l :: ls₁ ++ ls).length < n →
      (∀ e', e.ReadsAs e' →
        Turns t (commaStep (assign (levels n) false)) (e' :: acc) ls ls' P) →
      Turns t (commaStep (assign (levels n) false)) acc (l :: ls₁ ++ ls) ls' P := by
    intro s e l ls₁ ls acc h hl hfollows hn hnext
    refine .more (S := fun x => ∃ e', x = e' :: acc ∧ e.ReadsAs e') (by grind)
      ((Passes.eat (by rw [isSlash, hl]; rfl) hl).next ((h.assign hfollows
        (Nat.lt_of_succ_lt hn)).bind fun e' he' => .pure ⟨_, rfl, e', rfl, he'⟩)) ?_
    rintro _ ⟨e', rfl, he'⟩
    exact hnext e' he'
  induction h generalizing l acc with
  | nil => exact absurd rfl hne
  | last h => exact hround h hl hfollows hn fun e' he' => hend _ ((Collects.nil _).cons he')
  | @more s e es comma ls₁ ls₂ h hcomma hne' hes ih =>
    have hassoc : l :: (ls₁ ++ comma :: ls₂) ++ ls = l :: ls₁ ++ (comma :: ls₂ ++ ls) := by simp
    rw [hassoc] at hn ⊢
    exact hround h hl (comma_follows hcomma) hn fun e' he' =>
      ih hne' hcomma (by grind) fun acc' hacc => hend acc' (hacc.cons he')

theorem ReadsItems.commaSeparated (h : ReadsItems es ls₁) (he : e.IsSequenceOf es)
    (hfollows : Follows Strength.sequence ls) (hn : (ls₁ ++ ls).length < n) :
    Passes t (commaSeparated (assign (levels n) false)) (ls₁ ++ ls) ls e.ReadsAs := by
  have hassign := hfollows.mono (show Strength.sequence ≤ Strength.assign by decide)
  obtain ⟨l, rest, rfl, hpull⟩ := hfollows
  have hend : l.kind ≠ .punct .comma := TokenKind.ne_of_pull hpull (by decide)
  cases h with
  | nil => exact absurd rfl he.ne_nil
  | last h =>
    rcases he.2 with heq | ⟨_, _, hlength⟩
    · cases heq
      exact (h.assign hassign hn).bind fun e' he' => (Passes.isPunct_ne hend).next (.pure he')
    · simp at hlength
  | @more s e₁ es comma ls₁ ls₂ h hcomma hne hes =>
    rw [List.append_assoc] at hn ⊢
    refine (h.assign (comma_follows hcomma) hn).bind fun e' he' =>
      (Passes.isPunct_eq hcomma rfl).next ?_
    have hturns : Turns t (commaStep (assign (levels n) false)) [] (comma :: ls₂ ++ l :: rest)
        (l :: rest) (Expr.ListReadsAs es) := by
      refine hes.turns_comma hne hcomma hassign (by grind) fun acc hacc => ?_
      obtain ⟨es', rfl, hes'⟩ := hacc
      refine .last ((Passes.eatPunct_ne hend).next (.pure ⟨_, rfl, ?_⟩))
      rwa [List.append_nil, List.reverse_reverse]
    exact hturns.repeatUntil.bind fun es' hes' => .pure (he.readsAs_mkSequence (hes'.cons he'))

/-! ## Literals and names -/

theorem Passes.slashAsRegexp (hl : isSlash l = false) :
    Passes t slashAsRegexp (l :: ls) (l :: ls) fun _ => True := by
  have hslash : l.kind ≠ .punct .slash ∧ l.kind ≠ .punct .slashEqual := by
    simpa [isSlash] using hl
  exact (Passes.isPunct_ne hslash.1).next ((Passes.isPunct_ne hslash.2).next (.pure trivial))

theorem Passes.ident (name : String) :
    Passes t ident (.identifier name :: ls) ls fun id =>
      id.shape true = ⟨.nowhere, name, none⟩ := by
  refine (Passes.isName rfl).next ((bump rfl).bind fun token htoken => .pure ?_)
  rw [htoken]
  rfl

theorem reads_ident : Reads false primary Strength.call (.ident id) [.identifier id.name] := by
  intro t n ls _ _
  refine (Passes.slashAsRegexp rfl).bind fun _ _ => Passes.get.bind fun st hst => ?_
  rw [hst.1.lexeme_eq rfl]
  have hasync : (Lexeme.identifier id.name).kind ≠ .word .async := nofun
  exact (Passes.isWord_ne hasync).next ((Passes.ident _).bind fun id' hid =>
    .pure (congrArg Expr.ident hid))

theorem reads_number {x : Float} : Reads false primary Strength.call (.num loc x) [.number x] := by
  intro t n ls _ _
  refine (Passes.slashAsRegexp rfl).bind fun _ _ => Passes.get.bind fun st hst => ?_
  rw [hst.1.lexeme_eq rfl]
  exact (Passes.bump rfl).bind fun _ _ => .pure rfl

theorem reads_string {lit : StringLit} (h : lit.raw = none) :
    Reads false primary Strength.call (.str lit) [.string lit.value none] := by
  intro t n ls _ _
  refine (Passes.slashAsRegexp rfl).bind fun _ _ => Passes.get.bind fun st hst => ?_
  rw [hst.1.lexeme_eq rfl]
  refine (Passes.bump rfl).bind fun _ htoken => .pure ?_
  unfold stringLit Expr.ReadsAs
  rw [htoken, Expr.shape, Expr.shape, h]

theorem reads_this : Reads false primary Strength.call (.this loc) [.word .this] := by
  intro t n ls _ _
  refine (Passes.slashAsRegexp rfl).bind fun _ _ => Passes.get.bind fun st hst => ?_
  rw [hst.1.lexeme_eq rfl]
  exact (Passes.bump rfl).bind fun _ _ => .pure rfl

theorem ReadsItems.parens (h : ReadsItems es ls₁) (he : e.IsSequenceOf es) :
    Reads false primary Strength.call e (.punct .leftParen :: ls₁ ++ [.punct .rightParen]) := by
  rintro t n _ ⟨l, rest, rfl, hpull⟩ hn
  obtain ⟨m, rfl⟩ : ∃ m, n = m + 1 := ⟨n - 1, by omega⟩
  rw [List.append_assoc] at hn ⊢
  have harrow : l.kind ≠ .punct .arrow := TokenKind.ne_of_pull hpull (by decide)
  refine (Passes.slashAsRegexp rfl).bind fun _ _ => Passes.get.bind fun st hst => ?_
  rw [hst.1.lexeme_eq rfl]
  refine Passes.start.bind fun _ _ => (Passes.bump rfl).discard.bind fun _ _ =>
    (h.parenthesized (by simpa using hn)).bind ?_
  rintro _ ⟨es', rfl, hes'⟩
  refine (Passes.expect rfl rfl).bind fun _ _ => Passes.next
    ((Passes.isPunct_ne harrow).next (Passes.afterNewline.next (.pure rfl))) ?_
  have hne : es' ≠ [] := by
    rintro rfl
    exact he.ne_nil (by simpa [Expr.ListReadsAs] using hes'.symm)
  have hempty : es'.reverse.reverse.isEmpty = false := by simpa using hne
  rw [hempty, List.reverse_reverse]
  exact .pure (he.readsAs_mkSequence hes')

/-! ## Accesses and calls -/

/-- One round of the loop over accesses and calls. -/
def linkStep (g : Grammar) (start : Position) (calls : Bool) (tail : CallTail) :
    Parse (CallTail ⊕ CallTail) := do
  match ← callLink g start calls tail with
  | some tail => return .inl tail
  | none => return .inr tail

/-- What an operand may start with. -/
def operandKinds : List TokenKind :=
  [.identifier, .number, .string, .word .this, .word .new, .punct .leftParen]

def startsOperand (l : Lexeme) : Bool := l.kind ∈ operandKinds

/-- Reads what accesses and calls may follow some lexeme; a `new` expression of one grammar,
else an operand of another. -/
def chainHead (l : Lexeme) (g g' : Grammar) : Parse Expr :=
  if l.kind == .word .new then newExpr g false else primary g'

/-- The loop over accesses, and over calls if they are allowed, comes to an expression. -/
structure Chained (calls : Bool) (e : Expr) (ls₁ : List Lexeme) : Prop where
  first : ∃ l t, ls₁ = l :: t ∧ startsOperand l = true
  links : ∀ ⦃t : Targets⦄ ⦃m n : Nat⦄ ⦃start : Position⦄ ⦃ls ls' : List Lexeme⦄
    ⦃P : CallTail → Prop⦄, Follows Strength.call ls → (ls₁ ++ ls).length < m →
    (ls₁ ++ ls).length < n →
    (∀ x, e.ReadsAs x →
      Turns t (linkStep (levels n) start calls) ⟨x, false, false⟩ ls ls' P) →
    ∃ mid Q, Passes t (chainHead (ls₁.headD .endOfInput) (levels m) (levels n))
        (ls₁ ++ ls) mid Q ∧
      ∀ x, Q x → isArrow x = false ∧
        Turns t (linkStep (levels n) start calls) ⟨x, false, false⟩ mid ls' P

variable {calls pure : Bool}

theorem starts_of_startsOperand (h : startsOperand l = true) : l.starts = true := by
  have hkind : l.kind ∈ operandKinds := of_decide_eq_true h
  cases l with
  | word w =>
    have hw : w = .this ∨ w = .new := by simpa [operandKinds, Lexeme.kind] using hkind
    rcases hw with rfl | rfl <;>
      rfl
  | _ => simp_all [operandKinds, Lexeme.kind, Lexeme.starts]

theorem Chained.starts (h : Chained calls e ls₁) : Starts ls₁ := by
  obtain ⟨l, rest, rfl, hl⟩ := h.first
  exact ⟨l, rest, rfl, starts_of_startsOperand hl⟩

theorem Chained.head (h : Reads false primary Strength.call e ls₁)
    (hfirst : ∃ l t, ls₁ = l :: t ∧ startsOperand l = true ∧ l.kind ≠ .word .new)
    (harrow : isArrow e = false) : Chained calls e ls₁ := by
  obtain ⟨l, rest, rfl, hstarts, hnew⟩ := hfirst
  refine ⟨⟨l, rest, rfl, hstarts⟩, fun t m n start ls ls' P hfollows _ hn hnext =>
    ⟨ls, e.ReadsAs, ?_, fun x hx => ⟨hx.isArrow_eq.trans harrow, hnext x hx⟩⟩⟩
  rw [chainHead, List.headD_cons, beq_eq_false_iff_ne.mpr hnew]
  exact h hfollows hn

def Tails (e : Expr) (tail : CallTail) : Prop := ∃ e', tail = ⟨e', false, false⟩ ∧ e.ReadsAs e'

/-- One more access or call. -/
theorem Chained.link (h : Chained calls e ls₁) (hl : l.kind.pull ≤ Strength.call)
    (hlink : ∀ {t : Targets} {n : Nat} {ls : List Lexeme} {start : Position} {x : Expr},
      e.ReadsAs x → (l :: ls₂ ++ ls).length < n →
      Passes t (callLink (levels n) start calls ⟨x, false, false⟩) (l :: ls₂ ++ ls) ls
        fun r => ∃ x', r = some ⟨x', false, false⟩ ∧ e'.ReadsAs x') :
    Chained calls e' (ls₁ ++ l :: ls₂) := by
  obtain ⟨l₁, rest, rfl, hstarts⟩ := id h.first
  refine ⟨⟨l₁, rest ++ l :: ls₂, rfl, hstarts⟩, fun t m n start ls ls' P hfollows hm hn hnext => ?_⟩
  rw [List.append_assoc] at hm hn ⊢
  refine h.links ⟨l, ls₂ ++ ls, rfl, hl⟩ hm hn fun x hx => ?_
  have hround : Passes t (linkStep (levels n) start calls ⟨x, false, false⟩)
      (l :: ls₂ ++ ls) ls fun y => ∃ tail, y = .inl tail ∧ Tails e' tail := by
    refine (hlink hx (by grind)).bind ?_
    rintro _ ⟨x', rfl, hx'⟩
    exact .pure ⟨_, rfl, x', rfl, hx'⟩
  refine .more (by grind) hround ?_
  rintro _ ⟨x', rfl, hx'⟩
  exact hnext x' hx'

theorem Passes.memberName (text : String) : Passes t memberName (Literal.ofName text :: ls) ls
    fun p => ∃ loc, p = .ident ⟨loc, text, none⟩ := by
  have hident : Passes t identName (Literal.ofName text :: ls) ls
      fun id => ∃ loc, id = ⟨loc, text, none⟩ := by
    rcases Written.ofName_cases text with heq | ⟨w, htext, heq⟩ <;> rw [heq]
    all_goals
      refine (kind rfl).next ((bump rfl).bind fun token htoken => .pure ⟨token.span, ?_⟩)
      rw [htoken]
    · rfl
    · exact congrArg (Ident.mk _ · none) htext
  refine Passes.get.bind fun st hst => ?_
  rcases Written.ofName_cases text with heq | ⟨w, -, heq⟩
  all_goals
    rw [heq] at hst hident ⊢
    rw [hst.1.lexeme_eq rfl]
    refine hident.bind ?_
    rintro _ ⟨loc, rfl⟩
    exact .pure ⟨loc, rfl⟩

theorem Chained.dot (h : Chained calls e ls₁) :
    Chained calls (.member loc false e (.ident id))
      (ls₁ ++ [.punct .dot, Literal.ofName id.name]) := by
  refine h.link (by decide) fun hx _ => Passes.get.bind fun st hst => ?_
  rw [At.lexeme_eq hst.1 rfl]
  refine (Passes.bump rfl).discard.bind fun _ _ => (Passes.memberName id.name).bind ?_
  rintro _ ⟨loc', rfl⟩
  refine (Passes.spanFrom _).bind fun _ _ => .pure ⟨_, rfl, ?_⟩
  unfold Expr.ReadsAs
  rw [Expr.shape, Expr.shape, hx]
  rfl

theorem Chained.index {i : Expr} (h : Chained calls e ls₁) (hi : i.IsSequenceOf es)
    (hes : ReadsItems es ls₂) : Chained calls (.member loc false e (.computed i))
      (ls₁ ++ .punct .leftBracket :: (ls₂ ++ [.punct .rightBracket])) := by
  refine h.link (by decide) fun {t n ls start x} hx hn => Passes.get.bind fun st hst => ?_
  obtain ⟨m, rfl⟩ : ∃ m, n = m + 1 := ⟨n - 1, by omega⟩
  rw [At.lexeme_eq hst.1 rfl, List.cons_append, List.append_assoc]
  have hinner : Passes t (innerExpression (levels (m + 1)))
      (ls₂ ++ .punct .rightBracket :: ls) (.punct .rightBracket :: ls) i.ReadsAs :=
    hes.commaSeparated hi (close_follows rfl (by decide)) (by simpa using hn)
  refine Passes.bind (P := fun p => ∃ i', p = .computed i' ∧ i.ReadsAs i')
    ((Passes.bump rfl).discard.bind fun _ _ => hinner.bind fun i' hi' =>
      (Passes.expectPunct rfl rfl).bind fun _ _ => .pure ⟨i', rfl, hi'⟩) ?_
  rintro _ ⟨i', rfl, hi'⟩
  refine (Passes.spanFrom _).bind fun _ _ => .pure ⟨_, rfl, ?_⟩
  unfold Expr.ReadsAs
  rw [Expr.shape, Expr.shape, hx, PropName.shape, PropName.shape, hi']

theorem Chained.call (h : Chained true e ls₁) (hes : ReadsItems es ls₂) :
    Chained true (.call loc false pure e es)
      (ls₁ ++ .punct .leftParen :: (ls₂ ++ [.punct .rightParen])) := by
  refine h.link (by decide) fun hx hn => Passes.get.bind fun st hst => ?_
  rw [At.lexeme_eq hst.1 rfl, List.cons_append, List.append_assoc]
  refine (hes.arguments (by simpa using hn)).bind fun es' hes' =>
    (Passes.spanFrom _).bind fun _ _ => .pure ⟨_, rfl, ?_⟩
  unfold Expr.ReadsAs
  rw [Expr.shape, Expr.shape, hx, Expr.shapes_eq_map, Expr.shapes_eq_map, hes']
  rfl

def EndsChain (calls : Bool) (l : Lexeme) : Prop :=
  l.kind.pull ≤ Strength.new ∨ (calls = false ∧ l.kind = .punct .leftParen)

theorem passes_callLink_none {tail : CallTail} (hl : EndsChain calls l) :
    Passes t (callLink g start calls tail) (l :: ls) (l :: ls) (· = none) := by
  refine Passes.get.bind fun st hst => ?_
  have hne : ∀ k, st.token.kind = k → k ≠ .regexp → Strength.new < k.pull →
      calls = false ∧ k = .punct .leftParen := by
    intro k hk hregexp hpull
    have hkind : l.kind = k := by
      rcases hst.1.kind_cases with heq | ⟨heq, -⟩
      · exact heq.symm.trans hk
      · exact absurd (hk.symm.trans heq) hregexp
    rcases hl with hl | ⟨hcalls, hl⟩
    · rw [hkind] at hl
      omega
    · exact ⟨hcalls, hkind.symm.trans hl⟩
  split
  iterate 3 next heq => cases (hne _ (congrArg Lexeme.kind heq) (by decide) (by decide)).2
  · next heq =>
    rw [(hne _ (congrArg Lexeme.kind heq) (by decide) (by decide)).1]
    exact .pure rfl
  · next heq =>
    have hpull : Strength.new < Strength.primary := by decide
    cases (hne _ (congrArg Lexeme.kind heq) nofun hpull).2
  · exact .pure rfl

theorem turns_linkEnd (hl : EndsChain calls l) (hx : e.ReadsAs x) :
    Turns t (linkStep g start calls) ⟨x, false, false⟩ (l :: ls) (l :: ls) (Tails e) :=
  .last ((passes_callLink_none hl).next (.pure ⟨_, rfl, x, rfl, hx⟩))

theorem passes_callTail (h : Turns t (linkStep g start calls) ⟨x, false, false⟩ ls ls' (Tails e)) :
    Passes t (callTail g start x calls false) ls ls' e.ReadsAs := by
  refine h.repeatUntil.bind ?_
  rintro _ ⟨e', rfl, he'⟩
  exact .pure he'

/-! ## `new` -/

theorem kind_ne_of_startsOperand (h : startsOperand l = true) {k : TokenKind}
    (hk : k ∉ operandKinds) : l.kind ≠ k := fun heq => hk (heq ▸ of_decide_eq_true h)

theorem passes_isNew (h : startsOperand l = true) :
    Passes t (isWord .new) (l :: ls) (l :: ls) (· = (l.kind == .word .new)) := by
  cases hnew : l.kind == .word .new with
  | true => exact .isAt_eq (isSlash_of_starts (starts_of_startsOperand h)) (beq_iff_eq.mp hnew)
  | false => exact .isWord_ne (beq_eq_false_iff_ne.mp hnew)

theorem passes_newExpr {m : Nat} (h : Chained false e ls₁) (hm : (ls₁ ++ l :: ls).length + 1 < m)
    (hl : EndsChain false l) (hpull : l.kind.pull ≤ Strength.call)
    (hparen : Passes t (isPunct .leftParen) (l :: ls) (l :: ls) (· = b))
    (hargs : Passes t (if b then arguments (levels m) else Pure.pure []) (l :: ls) ls₂
      (Expr.ListReadsAs es)) :
    Passes t (newExpr (levels m) false) (.word .new :: (ls₁ ++ l :: ls)) ls₂
      (Expr.new loc pure e es).ReadsAs := by
  obtain ⟨k, rfl⟩ : ∃ k, m = k + 1 := ⟨m - 1, by omega⟩
  obtain ⟨l₁, rest, rfl, hstarts⟩ := id h.first
  have hdot : l₁.kind ≠ .punct .dot :=
    kind_ne_of_startsPunct (starts_of_startsOperand hstarts) (by decide)
  refine Passes.start.bind fun start _ => (Passes.bump rfl).discard.bind fun _ _ =>
    (Passes.eatPunct_ne hdot).next (Passes.start.bind fun calleeStart _ =>
    (Passes.isWord_ne (kind_ne_of_startsOperand hstarts (by decide))).next
    ((passes_isNew hstarts).next ?_))
  obtain ⟨mid, Q, hhead, hQ⟩ := @h.links t k _ calleeStart _ _ _
    ⟨l, ls, rfl, hpull⟩ (by omega) (Nat.lt_of_succ_lt hm) fun x hx => turns_linkEnd hl hx
  refine Passes.ite_bind hhead fun x hx => ?_
  show Passes t (if isArrow x = true then _ else _) _ _ _
  rw [(hQ x hx).1]
  refine (passes_callTail (hQ x hx).2).bind fun e' he' =>
    (Passes.isPunct_ne (TokenKind.ne_of_pull hpull (by decide))).next (hparen.next
    (Passes.ite_bind hargs fun es' hes' => (Passes.spanFrom _).bind fun _ _ => .pure ?_))
  unfold Expr.ReadsAs
  rw [Expr.shape, Expr.shape, he', Expr.shapes_eq_map, Expr.shapes_eq_map, hes']
  rfl

theorem Chained.new (h : Chained false e ls₁) (hes : ReadsItems es ls₂) :
    Chained calls (.new loc pure e es)
      (.word .new :: (ls₁ ++ .punct .leftParen :: (ls₂ ++ [.punct .rightParen]))) := by
  refine ⟨⟨_, _, rfl, rfl⟩, fun t m n start ls ls' P hfollows hm hn hnext =>
    ⟨ls, _, ?_, fun x hx => ⟨hx.isArrow_eq, hnext x hx⟩⟩⟩
  have hassoc : Lexeme.word .new :: (ls₁ ++ .punct .leftParen :: (ls₂ ++ [.punct .rightParen]))
    ++ ls =
      .word .new :: (ls₁ ++ .punct .leftParen :: (ls₂ ++ .punct .rightParen :: ls)) := by
    simp
  rw [hassoc] at hm ⊢
  exact passes_newExpr h (by simpa using hm) (.inr ⟨rfl, rfl⟩) (by decide)
    (.isPunct_eq rfl rfl) (hes.arguments (by grind))

/-! ## Operands with accesses and calls -/

theorem passes_leftHand (hl : startsOperand l = true)
    (h : ∀ start, ∃ mid Q, Passes t (chainHead l g g) (l :: ls) mid Q ∧ ∀ x, Q x →
      isArrow x = false ∧ Turns t (linkStep g start true) ⟨x, false, false⟩ mid ls' (Tails e)) :
    Passes t (leftHand g) (l :: ls) ls' e.ReadsAs := by
  refine Passes.start.bind fun start _ => Passes.pureMark.next ((passes_isNew hl).next ?_)
  obtain ⟨mid, Q, hhead, hQ⟩ := h start
  have hrest : ∀ x, Q x → Passes t (if isArrow x then Pure.pure x
      else callTail g start x true false) mid ls' e.ReadsAs := by
    intro x hx
    rw [(hQ x hx).1]
    exact passes_callTail (hQ x hx).2
  unfold chainHead at hhead
  cases hnew : l.kind == .word .new with
  | true =>
    rw [hnew] at hhead
    exact hhead.bind hrest
  | false =>
    rw [hnew] at hhead
    exact (Passes.isWord_ne (kind_ne_of_startsOperand hl (by decide))).next
      ((Passes.isWord_ne (kind_ne_of_startsOperand hl (by decide))).next
        (hhead.bind hrest))

theorem Chained.leftHand (h : Chained true e ls₁) :
    Reads false Parse.leftHand Strength.new e ls₁ := by
  rintro t n _ ⟨l, rest, rfl, hpull⟩ hn
  obtain ⟨l₁, rest₁, rfl, hstarts⟩ := id h.first
  exact passes_leftHand hstarts fun start =>
    h.links ⟨l, rest, rfl, Nat.le_trans hpull (by decide)⟩ hn
    hn fun x hx => turns_linkEnd (.inl hpull) hx

theorem Chained.newAlone (h : Chained false e ls₁) :
    Reads false Parse.leftHand Strength.new (.new loc pure e []) (.word .new :: ls₁) := by
  rintro t n _ ⟨l, rest, rfl, hpull⟩ hn
  have hcall : l.kind.pull ≤ Strength.call := Nat.le_trans hpull (by decide)
  have hparen : l.kind ≠ .punct .leftParen := TokenKind.ne_of_pull hpull (by decide)
  have hnil : Expr.ListReadsAs [] [] := rfl
  exact passes_leftHand rfl fun start => ⟨_, _,
    passes_newExpr h hn (.inl hpull) hcall (.isPunct_ne hparen) (.pure hnil), fun x hx =>
    ⟨hx.isArrow_eq, turns_linkEnd (.inl hpull) hx⟩⟩

/-! ## Unary operators -/

theorem passes_unary {P : Expr → Prop} (hl : startsOperand l = true)
    (h : Passes t (postfixExpr g) (l :: ls) ls' P) : Passes t (unary g) (l :: ls) ls' P := by
  have hall : ∀ k ∈ operandKinds, unaryOp? k = none ∧ updateOp? k = none := by
    decide
  have hops := hall _ (of_decide_eq_true hl)
  have hslash := isSlash_of_starts (starts_of_startsOperand hl)
  refine Passes.start.bind fun _ _ => (Passes.kind hslash).next ((Passes.kind hslash).next ?_)
  rw [hops.1, hops.2]
  exact (Passes.isWord_ne (kind_ne_of_startsOperand hl (by decide))).next
    (Passes.get.bind fun _ _ => h)

theorem Reads.unary (h : Reads false leftHand Strength.new e ls₁)
    (hfirst : ∃ l t, ls₁ = l :: t ∧ startsOperand l = true) :
    Reads false Parse.unary Strength.postfixOp e ls₁ := by
  intro t n ls hfollows hn
  have hleft := h (t := t) (hfollows.mono (by decide)) hn
  obtain ⟨l, rest, rfl, hpull⟩ := hfollows
  obtain ⟨l₁, rest₁, rfl, hstarts⟩ := hfirst
  refine passes_unary hstarts (Passes.start.bind fun _ _ => hleft.bind fun e' he' => ?_)
  refine Passes.bind (P := fun k => updateOp? k = none) (.look (fun _ => rfl) fun st hat _ => ?_)
    fun k hk => ?_
  · rcases hat.kind_cases with heq | ⟨heq, -⟩
    · rw [heq]
      exact TokenKind.updateOp?_of_pull hpull
    · rw [heq]
      rfl
  · rw [hk]
    exact .pure he'

theorem isSlash_of_updateOp (h : updateOp? l.kind = some op) :
    unaryOp? l.kind = none ∧ isSlash l = false := by
  unfold updateOp? at h
  split at h
  · next heq => rw [isSlash, heq]; exact ⟨rfl, rfl⟩
  · next heq => rw [isSlash, heq]; exact ⟨rfl, rfl⟩
  · cases h

theorem Reads.updateAfter (h : Reads false leftHand Strength.new e ls₁)
    (hfirst : ∃ l t, ls₁ = l :: t ∧ startsOperand l = true)
    (htarget : isSimpleTarget false e = true) (harrow : isArrow e = false)
    (hop : updateOp? l.kind = some op) :
    Reads false Parse.unary Strength.postfixOp (.update loc op false e) (ls₁ ++ [l]) := by
  intro t n ls hfollows hn
  rw [List.append_assoc] at hn ⊢
  have hslash := (isSlash_of_updateOp hop).2
  have hleft := @h t n (l :: ls) ⟨l, ls, rfl, Nat.le_of_eq (TokenKind.pull_update hop)⟩ hn
  obtain ⟨l₁, rest₁, rfl, hstarts⟩ := hfirst
  refine passes_unary hstarts (Passes.start.bind fun _ _ => hleft.bind fun e' he' =>
    (Passes.kind hslash).next ?_)
  rw [hop]
  refine Passes.afterNewline.next ?_
  rw [he'.isArrow_eq, harrow]
  refine Passes.isStrict.next ?_
  rw [he'.isSimpleTarget_eq, htarget]
  refine (Passes.bump hslash).discard.bind fun _ _ => (Passes.spanFrom _).bind fun _ _ => .pure ?_
  unfold Expr.ReadsAs
  rw [Expr.shape, Expr.shape, he']

theorem Reads.unaryOp {op : UnaryOp} (h : Reads false Parse.unary s e ls₁)
    (hs : Strength.unary ≤ s) (hop : unaryOp? l.kind = some op) (hl : isSlash l = false) :
    Reads false Parse.unary Strength.unary (.unary loc op e) (l :: ls₁) := by
  intro t n ls hfollows hn
  obtain ⟨m, rfl⟩ : ∃ m, n = m + 1 := ⟨n - 1, by omega⟩
  have hinner := h (t := t) (hfollows.mono hs) (Nat.lt_of_succ_lt_succ hn)
  obtain ⟨l', rest, rfl, hpull⟩ := hfollows
  refine Passes.start.bind fun _ _ => (Passes.kind hl).next ((Passes.kind hl).next ?_)
  rw [hop]
  refine (Passes.bump hl).discard.bind fun _ _ => hinner.bind fun e' he' => Passes.isStrict.next ?_
  rw [Bool.and_false, Bool.false_and]
  refine (Passes.isPunct_ne (TokenKind.ne_of_pull hpull (by decide))).next
    ((Passes.spanFrom _).bind fun _ _ => .pure ?_)
  unfold Expr.ReadsAs
  rw [Expr.shape, Expr.shape, he']

theorem Reads.updateBefore (h : Reads false Parse.unary s e ls₁) (hs : Strength.unary ≤ s)
    (htarget : isSimpleTarget false e = true) (hop : updateOp? l.kind = some op) :
    Reads false Parse.unary Strength.unary (.update loc op true e) (l :: ls₁) := by
  intro t n ls hfollows hn
  obtain ⟨m, rfl⟩ : ∃ m, n = m + 1 := ⟨n - 1, by omega⟩
  obtain ⟨hunary, hslash⟩ := isSlash_of_updateOp hop
  refine Passes.start.bind fun _ _ => (Passes.kind hslash).next ((Passes.kind hslash).next ?_)
  rw [hunary, hop]
  refine (Passes.bump hslash).discard.bind fun _ _ => Passes.start.bind fun _ _ =>
    (h (hfollows.mono hs) (Nat.lt_of_succ_lt_succ hn)).bind fun e' he' => Passes.isStrict.next ?_
  rw [he'.isSimpleTarget_eq, htarget]
  refine (Passes.spanFrom _).bind fun _ _ => .pure ?_
  unfold Expr.ReadsAs
  rw [Expr.shape, Expr.shape, he']

end Laconic.Parse
