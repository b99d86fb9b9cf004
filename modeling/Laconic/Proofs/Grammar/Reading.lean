import Laconic.Grammar.Program
import Laconic.Proofs.Grammar.Phrase
import Laconic.Proofs.Grammar.Surroundings

/-!
# Reading known tokens

What the operations of the reader do where the tokens that follow are known.  `Exact st ls`
says that the present token and the ones after it are the lexemes `ls`; `At st ls` allows
that the present token, a division, has been taken for a regular expression.  Every test
of the reader but the one for that case gives the same answer either way.

`Passes t m ls ls' P` says that the operation `m` succeeds where the lexemes `ls` follow,
with `ls'` left over, and gives something with the property `P`; the targets of jumps `t`
stay as they are.  Operations one after the other pass what each of them passes, so what a
rule of the grammar reads follows its definition.  A loop ends in time since every round
takes a token.
-/

namespace Laconic

/-- Code that is not strict, outside asynchronous functions. -/
structure Context.IsPlain (c : Context) : Prop where
  strict : c.strict = false
  isAsync : c.isAsync = false

namespace Parse

/-! ## The tokens that follow -/

/-- A reader in plain code, with no comments or line ends. -/
structure Calm (st : ParserState) : Prop where
  newline : st.token.afterNewline = false
  tokenComments : st.token.comments = []
  comments : st.comments = []
  context : st.context.IsPlain
  module : st.module = false
  shebang : st.scanner.shebang = none

/-- What is known of the tokens `ls` that follow, whichever way the present one was read. -/
structure Facing (st : ParserState) (ls : List Lexeme) : Prop where
  calm : Calm st
  length : ls.length ≤ st.scanner.chars.length
  arrowless : ∀ l ∈ ls, l ≠ .punct .arrow

/-- The present token and those after it are the lexemes `ls`. -/
structure Exact (st : ParserState) (ls : List Lexeme) : Prop extends Facing st ls where
  token : st.token.lexeme = ls.headD .endOfInput
  ahead : Scanning.Ahead st.scanner ls.tail

/-- The tokens that follow are the lexemes `ls`, but the present one may be a division that
was taken for a regular expression. -/
def At (st : ParserState) (ls : List Lexeme) : Prop :=
  Exact st ls ∨ Facing st ls ∧ ∃ p rest, ls = .punct p :: rest ∧
    Scanning.Misread st.scanner st.token p rest

variable {st : ParserState} {l l' : Lexeme} {ls ls₁ ls₂ : List Lexeme} {k : TokenKind} {p : Punct}
  {w : Word}

def isSlash (l : Lexeme) : Bool := l.kind == .punct .slash || l.kind == .punct .slashEqual

theorem At.facing (h : At st ls) : Facing st ls := by
  rcases h with h | h
  · exact h.toFacing
  · exact h.1

theorem At.exact (h : At st (l :: ls)) (hl : isSlash l = false) : Exact st (l :: ls) := by
  rcases h with h | ⟨-, p, rest, heq, hmisread⟩
  · exact h
  · cases heq
    rcases hmisread.slash with rfl | rfl <;> cases hl

/-- The kind of the present token. -/
theorem At.kind_cases (h : At st (l :: ls)) :
    st.token.kind = l.kind ∨ (st.token.kind = .regexp ∧ isSlash l = true) := by
  rcases h with h | ⟨-, p, rest, heq, hmisread⟩
  · exact .inl (congrArg Lexeme.kind h.token)
  · cases heq
    refine .inr ⟨hmisread.kind, ?_⟩
    rcases hmisread.slash with rfl | rfl <;> rfl

theorem At.withContext (h : At st ls) {c : Context} (hc : c.IsPlain) :
    At { st with context := c } ls := by
  have hfacing : Facing { st with context := c } ls :=
    ⟨⟨h.facing.calm.newline, h.facing.calm.tokenComments, h.facing.calm.comments, hc,
      h.facing.calm.module, h.facing.calm.shebang⟩, h.facing.length, h.facing.arrowless⟩
  rcases h with h | ⟨-, h⟩
  · exact .inl ⟨hfacing, h.token, h.ahead⟩
  · exact .inr ⟨hfacing, h⟩

theorem At.lexeme_eq (h : At st (l :: ls)) (hl : isSlash l = false) : st.token.lexeme = l :=
  (h.exact hl).token

/-- How surely the first of the lexemes that follow has been read as it is. -/
def Before : Bool → ParserState → List Lexeme → Prop
  | true => Exact
  | false => At

theorem Before.at {b : Bool} (h : Before b st ls) : At st ls := by
  cases b with
  | true => exact .inl h
  | false => exact h

variable {t t' : Targets} {α β σ : Type} {m : Parse α} {f : α → Parse β} {P : α → Prop}
  {Q : β → Prop} {b b₁ b₂ : Bool}

/-- Among some targets for jumps an operation comes from some lexemes to others, and gives
something with a property. -/
def Passes (t : Targets) (m : Parse α) (ls ls' : List Lexeme) (P : α → Prop)
    (exact exact' : Bool := false) : Prop :=
  ∀ st, Before exact st ls → st.context.targets = t →
    ∃ a st', Runs m st a st' ∧ Before exact' st' ls' ∧ st'.context.targets = t ∧ P a

namespace Passes

/-! ## Putting operations together -/

theorem pure {a : α} (h : P a) : Passes t (pure a) ls ls P b b :=
  fun st hst ht => ⟨a, st, Runs.pure _ _, hst, ht, h⟩

theorem bind (hm : Passes t m ls ls₁ P b b₁) (hf : ∀ a, P a → Passes t (f a) ls₁ ls₂ Q b₁ b₂) :
    Passes t (m >>= f) ls ls₂ Q b b₂ := by
  intro st hst ht
  obtain ⟨a, st₁, hrun₁, hst₁, ht₁, ha⟩ := hm st hst ht
  obtain ⟨c, st₂, hrun₂, h⟩ := hf a ha st₁ hst₁ ht₁
  exact ⟨c, st₂, Runs.bind hrun₁ hrun₂, h⟩

theorem next {a : α} (hm : Passes t m ls ls₁ (· = a) b b₁) (hf : Passes t (f a) ls₁ ls₂ Q b₁ b₂) :
    Passes t (m >>= f) ls ls₂ Q b b₂ := by
  refine hm.bind ?_
  rintro _ rfl
  exact hf

theorem mono {P' : α → Prop} (hm : Passes t m ls ls₁ P b b₁) (h : ∀ a, P a → P' a) :
    Passes t m ls ls₁ P' b b₁ := by
  intro st hst ht
  obtain ⟨a, st', hrun, hst', ht', ha⟩ := hm st hst ht
  exact ⟨a, st', hrun, hst', ht', h a ha⟩

theorem map {g : α → β} (hm : Passes t m ls ls₁ P b b₁) (h : ∀ a, P a → Q (g a)) :
    Passes t (g <$> m) ls ls₁ Q b b₁ :=
  bind (f := fun a => Pure.pure (g a)) hm fun a ha => .pure (h a ha)

theorem discard (hm : Passes t m ls ls₁ P b b₁) :
    Passes t (discard m) ls ls₁ (fun _ => True) b b₁ :=
  hm.map fun _ _ => trivial

theorem ite_bind {c : Prop} [Decidable c] {m' : Parse α}
    (h : Passes t (if c then m else m') ls ls₁ P b b₁)
    (hf : ∀ a, P a → Passes t (f a) ls₁ ls₂ Q b₁ b₂) :
    Passes t (if c then m >>= f else m' >>= f) ls ls₂ Q b b₂ := by
  split at h
  · next hc => rw [if_pos hc]; exact h.bind hf
  · next hc => rw [if_neg hc]; exact h.bind hf

theorem loosen (hm : Passes t m ls ls₁ P b b₁) : Passes t m ls ls₁ P b := by
  intro st hst ht
  obtain ⟨a, st', hrun, hst', h⟩ := hm st hst ht
  exact ⟨a, st', hrun, hst'.at, h⟩

theorem look {r : ParserState → α} (hrun : ∀ st, Runs m st (r st) st)
    (h : ∀ st, At st ls → st.context.targets = t → P (r st)) : Passes t m ls ls P b b :=
  fun st hst ht => ⟨_, st, hrun st, hst, ht, h st hst.at ht⟩

theorem of_arrowless (h : (∀ l ∈ ls, l ≠ .punct .arrow) → Passes t m ls ls₁ P b b₁) :
    Passes t m ls ls₁ P b b₁ := fun st hst => h hst.at.facing.arrowless st hst

/-- What is read in changed surroundings. -/
theorem inContext {change : Context → Context} (hplain : ∀ c, c.IsPlain → (change c).IsPlain)
    (htargets : ∀ c, c.targets = t → (change c).targets = t') (hm : Passes t' m ls ls₁ P) :
    Passes t (inContext change m) ls ls₁ P := by
  intro st hat ht
  have hcontext := (Before.at hat).facing.calm.context
  obtain ⟨a, st', hrun, hat', -, ha⟩ := hm { st with context := change st.context }
    (At.withContext hat (hplain _ hcontext)) (htargets _ ht)
  exact ⟨a, { st' with context := st.context }, Runs.bind rfl (Runs.bind rfl (Runs.bind hrun
    (Runs.bind rfl rfl))), At.withContext hat' hcontext, ht, ha⟩

/-! ## Looking -/

theorem start : Passes t start ls ls (fun _ => True) b b := look (fun _ => rfl) fun _ _ _ => trivial

theorem spanFrom (pos : Position) : Passes t (spanFrom pos) ls ls (fun _ => True) b b :=
  look (fun _ => rfl) fun _ _ _ => trivial

theorem get : Passes t get ls ls (fun st => At st ls ∧ st.context.targets = t) b b :=
  look (fun _ => rfl) fun _ hat ht => ⟨hat, ht⟩

theorem isStrict : Passes t isStrict ls ls (· = false) b b :=
  look (fun _ => rfl) fun _ hat _ => hat.facing.calm.context.strict

theorem afterNewline : Passes t afterNewline ls ls (· = false) b b :=
  look (fun _ => rfl) fun _ hat _ => hat.facing.calm.newline

theorem pureMark : Passes t pureMark ls ls (· = false) b b :=
  look (fun _ => rfl) fun _ hat _ => by rw [hat.facing.calm.tokenComments]; rfl

theorem kind (hl : isSlash l = false) : Passes t kind (l :: ls) (l :: ls) (· = l.kind) b b :=
  look (fun _ => rfl) fun _ hat _ => congrArg Lexeme.kind (hat.lexeme_eq hl)

theorem kind_exact : Passes t Parse.kind (l :: ls) (l :: ls) (· = l.kind) true true :=
  fun st hst ht => ⟨_, st, rfl, hst, ht, congrArg Lexeme.kind hst.token⟩

theorem isAt_true (hl : isSlash (ls.headD .endOfInput) = false)
    (hk : (ls.headD .endOfInput).kind = k) : Passes t (isAt k) ls ls (· = true) b b := by
  refine look (fun _ => rfl) fun st hat _ => ?_
  have htoken : st.token.lexeme = ls.headD .endOfInput := by
    rcases hat with hexact | ⟨-, p, rest, rfl, hmisread⟩
    · exact hexact.token
    · rcases hmisread.slash with rfl | rfl <;> cases hl
  rw [beq_iff_eq, Token.kind, htoken, hk]

theorem isAt_false (h : (ls.headD .endOfInput).kind ≠ k) (hk : k ≠ .regexp) :
    Passes t (isAt k) ls ls (· = false) b b := by
  refine look (fun _ => rfl) fun st hat _ => ?_
  rw [beq_eq_false_iff_ne, Token.kind]
  rcases hat with hexact | ⟨-, p, rest, rfl, hmisread⟩
  · rwa [hexact.token]
  · exact fun heq => hk (heq.symm.trans hmisread.kind)

theorem isAt_eq (hl : isSlash l = false) (hk : l.kind = k) :
    Passes t (isAt k) (l :: ls) (l :: ls) (· = true) b b := isAt_true hl hk

theorem isPunct_eq (hl : l.kind = .punct p) (hp : isSlash (.punct p) = false) :
    Passes t (isPunct p) (l :: ls) (l :: ls) (· = true) b b :=
  isAt_eq (by rwa [isSlash, hl]) hl

theorem isAt_ne (h : l.kind ≠ k) (hk : k ≠ .regexp) :
    Passes t (isAt k) (l :: ls) (l :: ls) (· = false) b b := isAt_false h hk

theorem isPunct_ne (h : l.kind ≠ .punct p) :
    Passes t (isPunct p) (l :: ls) (l :: ls) (· = false) b b := isAt_ne h nofun

theorem isWord_ne (h : l.kind ≠ .word w) :
    Passes t (isWord w) (l :: ls) (l :: ls) (· = false) b b := isAt_ne h nofun

theorem peek? (hl : isSlash l = false) : Passes t peek? (l :: l' :: ls) (l :: l' :: ls)
    (fun token => ∃ t, token = some t ∧
      (t.kind = l'.kind ∨ (t.kind = .regexp ∧ isSlash l' = true))) b b := by
  intro st hst ht
  obtain ⟨token, s', hrun, -, -, -, -, hread⟩ := Scanning.next_of_ahead (hst.at.exact hl).ahead
  refine ⟨some token, st, Runs.bind (Runs.pure _ _) ?_, hst, ht, token, rfl, ?_⟩
  · rw [hrun]
    rfl
  · rcases hread with ⟨heq, -⟩ | ⟨p, rfl, hmisread⟩
    · exact .inl (congrArg Lexeme.kind heq)
    · refine .inr ⟨hmisread.kind, ?_⟩
      rcases hmisread.slash with rfl | rfl <;> rfl

/-! ## Taking -/

theorem runs_onScanner {act : Scanning α} {a : α} {s : Scanner}
    (h : Runs act st.scanner a s) : Runs (onScanner act) st a { st with scanner := s } := by
  unfold Runs onScanner
  rw [h]

theorem bump_exact : Passes t bump (l :: ls) ls (·.lexeme = l) true := by
  intro st h ht
  have hlength : ls.length ≤ st.scanner.chars.length := Nat.le_of_succ_le h.length
  have harrow : ∀ l ∈ ls, l ≠ .punct .arrow := fun l hl => h.arrowless l (List.mem_cons_of_mem _ hl)
  cases ls with
  | nil =>
    obtain ⟨token, hrun, hend, hnewline, hcomments⟩ := Scanning.next_of_end h.ahead
    refine ⟨_, _, Runs.bind (runs_onScanner hrun) rfl, .inl ⟨⟨⟨hnewline, hcomments, ?_,
      h.calm.context, h.calm.module, h.calm.shebang⟩, hlength, harrow⟩, hend, h.ahead⟩, ht, h.token⟩
    rw [hcomments, h.calm.comments]
    rfl
  | cons l' ls =>
    obtain ⟨token, s', hrun, hnewline, hcomments, hchars, hshebang, hread⟩ :=
      Scanning.next_of_ahead h.ahead
    rw [← hchars] at hlength
    have hcalm : token.comments.reverse ++ st.comments = [] := by
      rw [hcomments, h.calm.comments]
      rfl
    refine ⟨_, _, Runs.bind (runs_onScanner hrun) rfl, ?_, ht, h.token⟩
    have hfacing : Facing { st with
        scanner := s'
        token := token
        prevKind := some st.token.kind
        prevStop := st.token.span.stop
        comments := token.comments.reverse ++ st.comments } (l' :: ls) :=
      ⟨⟨hnewline, hcomments, hcalm, h.calm.context, h.calm.module,
        hshebang.trans h.calm.shebang⟩, hlength, harrow⟩
    rcases hread with ⟨heq, hahead⟩ | ⟨p, rfl, hmisread⟩
    · exact .inl ⟨hfacing, heq, hahead⟩
    · exact .inr ⟨hfacing, p, ls, rfl, hmisread⟩

theorem bump (hl : isSlash l = false) : Passes t bump (l :: ls) ls (·.lexeme = l) b :=
  fun st hst => bump_exact st (hst.at.exact hl)

theorem regexpAsSlash (hl : l.kind ≠ .regexp) :
    Passes t regexpAsSlash (l :: ls) (l :: ls) (fun _ => True) false true := by
  rintro st (h | ⟨hfacing, p, rest, heq, hmisread⟩) ht
  · have hne : (st.token.kind == .regexp) = false := by
      rw [beq_eq_false_iff_ne, Token.kind, h.token]
      exact hl
    have hrun : Runs (isAt .regexp) st (st.token.kind == .regexp) st := rfl
    rw [hne] at hrun
    exact ⟨(), st, Runs.bind hrun rfl, h, ht, trivial⟩
  · cases heq
    obtain ⟨t, s', hrescan, hlexeme, hnewline, hcomments, hchars, hshebang, hahead⟩ :=
      Scanning.rescanDivision_of_misread hmisread
    have hrun : Runs (isAt .regexp) st (st.token.kind == .regexp) st := rfl
    rw [hmisread.kind] at hrun
    refine ⟨(), _, Runs.bind hrun (Runs.bind (Runs.pure _ _)
      (Runs.bind (runs_onScanner hrescan) rfl)),
      ⟨⟨⟨?_, ?_, hfacing.calm.comments, hfacing.calm.context, hfacing.calm.module, ?_⟩, ?_,
        hfacing.arrowless⟩, hlexeme, hahead⟩, ht, trivial⟩
    · exact hnewline.trans hfacing.calm.newline
    · exact hcomments.trans hfacing.calm.tokenComments
    · exact hshebang.trans hfacing.calm.shebang
    · have := hfacing.length
      rwa [← hchars] at this

theorem eat (hl : isSlash l = false) (hk : l.kind = k) :
    Passes t (eat k) (l :: ls) ls (· = true) b :=
  (isAt_eq hl hk).next ((bump hl).discard.bind fun _ _ => .pure rfl)

theorem eat_false (h : (ls.headD .endOfInput).kind ≠ k) (hk : k ≠ .regexp) :
    Passes t (Parse.eat k) ls ls (· = false) b b := (isAt_false h hk).next (.pure rfl)

theorem eatPunct_ne (h : l.kind ≠ .punct p) :
    Passes t (eatPunct p) (l :: ls) (l :: ls) (· = false) b b := eat_false h nofun

theorem expect (hl : isSlash l = false) (hk : l.kind = k) :
    Passes t (expect k) (l :: ls) ls (·.lexeme = l) b := (isAt_eq hl hk).next (bump hl)

theorem expectPunct (hl : l.kind = .punct p) (hp : isSlash (.punct p) = false) :
    Passes t (expectPunct p) (l :: ls) ls (fun _ => True) b :=
  (expect (by rwa [isSlash, hl]) hl).discard

theorem of_ne {ls' : List Lexeme} {P' : α → Prop} {m' : Parse β}
    (h : Passes t m ls (l :: ls₁) P) (h' : Passes t m ls (l' :: ls') P') (hl : isSlash l = false)
    (hl' : isSlash l' = false) (hne : l ≠ l') : Passes t m' ls ls₂ Q := by
  intro st hat ht
  obtain ⟨a, st₁, hrun, hat₁, -⟩ := h st hat ht
  obtain ⟨a', st₂, hrun', hat₂, -⟩ := h' st hat ht
  have heq : EStateM.Result.ok a st₁ = .ok a' st₂ := hrun.symm.trans hrun'
  cases heq
  exact absurd ((At.lexeme_eq hat₁ hl).symm.trans (At.lexeme_eq hat₂ hl')) hne

end Passes

/-! ## Loops -/

variable {step : σ → Parse (σ ⊕ α)} {s : σ}

/-- From some state on, the rounds of a loop come from some lexemes to others. -/
def Turns (t : Targets) (step : σ → Parse (σ ⊕ α)) (s : σ) (ls ls' : List Lexeme) (P : α → Prop)
    (exact exact' : Bool := false) : Prop :=
  ∀ bound, ls.length < bound → Passes t (repeatWithin step bound s) ls ls' P exact exact'

/-- A round that takes a token. -/
theorem Turns.more {S : σ → Prop} (hlt : ls₁.length < ls.length)
    (h : Passes t (step s) ls ls₁ (fun x => ∃ s', x = .inl s' ∧ S s') b b₁)
    (hnext : ∀ s', S s' → Turns t step s' ls₁ ls₂ P b₁ b₂) : Turns t step s ls ls₂ P b b₂ := by
  rintro (- | bound) hbound
  · exact absurd hbound (Nat.not_lt_zero _)
  · refine h.bind ?_
    rintro _ ⟨s', rfl, hs'⟩
    exact hnext s' hs' bound (by omega)

theorem Turns.last (h : Passes t (step s) ls ls₁ (fun x => ∃ a, x = .inr a ∧ P a) b b₁) :
    Turns t step s ls ls₁ P b b₁ := by
  rintro (- | bound) hbound
  · exact absurd hbound (Nat.not_lt_zero _)
  · refine h.bind ?_
    rintro _ ⟨a, rfl, ha⟩
    exact .pure ha

theorem Turns.repeatUntil (h : Turns t step s ls ls₁ P b b₁) :
    Passes t (repeatUntil step s) ls ls₁ P b b₁ := by
  intro st hst ht
  have hlength := hst.at.facing.length
  obtain ⟨a, st', hrun, h⟩ := h (st.scanner.chars.length + 2) (by omega) st hst ht
  exact ⟨a, st', Runs.bind (Runs.bind (Runs.pure _ _) rfl) hrun, h⟩

end Parse

end Laconic
