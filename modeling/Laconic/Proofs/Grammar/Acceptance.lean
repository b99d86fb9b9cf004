import Laconic.Proofs.Grammar.Jumps
import Laconic.Proofs.Grammar.Operand

/-!
# Derived tokens are read

The tokens that the grammar of phrases derives for an expression are read as that
expression, by induction on the derivation.  A text is read as a program if its lexemes are
read as statements.
-/

namespace Laconic

open Parse Written

variable {ls : List Lexeme} {ws : List Written} {e : Expr} {t : List Char}

def Phrase.IsRead : Phrase → List Lexeme → Prop
  | .operand e, ls => Reads false primary Strength.call e ls ∧ isArrow e = false ∧
      ∃ l t, ls = l :: t ∧ startsOperand l = true ∧ l.kind ≠ .word .new
  | .chain calls e, ls => Chained calls e ls ∧ isArrow e = false
  | .expr s e, ls => ReadsExpr s e ls ∧ isArrow e = false ∧
      (s ≤ Strength.conditional ∨ Strength.binary < s)
  | .items es, ls => ReadsItems es ls ∧ ∀ e ∈ es, isArrow e = false

theorem eq_of_strength_logical {op : InfixOp} {op' : LogicalOp}
    (h : (InfixOp.logical op').strength = op.strength) : op = .logical op' := by
  revert h
  rcases op with op | op <;> cases op <;> cases op' <;> decide

theorem isArrow_apply (op : InfixOp) (loc : Span) (a b : Expr) :
    isArrow (op.apply loc a b) = false := by
  cases op <;> rfl

theorem Parse.Chained.readsExpr (h : Chained true e ls) (harrow : isArrow e = false) :
    ReadsExpr Strength.call e ls :=
  .of_unary h.starts (by decide) (h.leftHand.unary h.first) harrow

theorem Expr.IsSequenceOf.isArrow_eq_false {es : List Expr} (h : e.IsSequenceOf es)
    (hes : ∀ x ∈ es, isArrow x = false) : isArrow e = false := by
  rcases h.2 with rfl | ⟨loc, rfl, -⟩
  · exact hes e (by simp)
  · rfl

theorem Derives.isRead {ph : Phrase} (h : Derives ph ws) : ph.IsRead (ws.map lexeme) := by
  induction h with
  | @ident id h hword =>
    have hlexeme : (Written.name id.name h).lexeme = .identifier id.name :=
      Scanning.ofName_of_ofText? hword
    rw [List.map_singleton, hlexeme]
    exact ⟨reads_ident, rfl, _, _, rfl, rfl, nofun⟩
  | number h => exact ⟨reads_number, rfl, _, _, rfl, rfl, nofun⟩
  | string h => exact ⟨reads_string h, rfl, _, _, rfl, rfl, nofun⟩
  | this => exact ⟨reads_this, rfl, _, _, rfl, rfl, by decide⟩
  | parens he h ih =>
    rw [List.map_append]
    exact ⟨ih.1.parens he, he.isArrow_eq_false ih.2, _, _, rfl, rfl, nofun⟩
  | head h ih => exact ⟨.head ih.1 ih.2.2 ih.2.1, ih.2.1⟩
  | new h hargs ih ihargs =>
    rw [List.map_append, List.map_append, List.append_assoc]
    exact ⟨ih.1.new ihargs.1, rfl⟩
  | dot h hdigits hname' ih =>
    rw [List.map_append]
    exact ⟨ih.1.dot, rfl⟩
  | @dotDigits calls loc loc' x id cs h hdigits hname' =>
    have hnumber : Chained calls (.num loc' x) [.number x] :=
      .head reads_number ⟨_, _, rfl, rfl, nofun⟩ rfl
    exact ⟨hnumber.dot, rfl⟩
  | index h hi hes ih ihes =>
    rw [List.map_append, List.map_append, List.append_assoc]
    exact ⟨ih.1.index hi ihes.1, rfl⟩
  | call h hargs ih ihargs =>
    rw [List.map_append, List.map_append, List.append_assoc]
    exact ⟨ih.1.call ihargs.1, rfl⟩
  | chain h ih => exact ⟨ih.1.readsExpr ih.2, ih.2, .inr (by decide)⟩
  | newAlone h ih =>
    refine ⟨.of_unary ⟨_, _, rfl, rfl⟩ (by decide) ?_ rfl, rfl, .inr (by decide)⟩
    exact ih.1.newAlone.unary ⟨_, _, rfl, rfl⟩
  | @updateAfter loc op e ws ht h ih =>
    rw [List.map_append, List.map_singleton]
    refine ⟨.of_unary (ih.1.starts.append _) (by decide) ?_ rfl, rfl, .inr (by decide)⟩
    exact ih.1.leftHand.updateAfter ih.1.first ht ih.2 (symbol_updateOp op).2.1
  | @updateBefore loc op e ws ht h ih =>
    refine ⟨.of_unary ⟨_, _, rfl, (symbol_updateOp op).2.2.2⟩ (by decide) ?_ rfl, rfl,
      .inr (by decide)⟩
    exact (ih.1.leftHand.unary ih.1.first).updateBefore (by decide) ht (symbol_updateOp op).2.1
  | @unary loc op s e ws hs h ih =>
    refine ⟨.of_unary ⟨_, _, rfl, (symbol_unaryOp op).2.2.2⟩ (by decide) ?_ rfl, rfl,
      .inr (by decide)⟩
    exact (ih.1.unary hs).unaryOp (Nat.le_min.mpr ⟨hs, by decide⟩) (symbol_unaryOp op).2.1
      (isSlash_of_starts (symbol_unaryOp op).2.2.2)
  | @operation op loc s s' l r ws ws' hs hl hs' hr ihl ihr =>
    rw [List.map_append, List.map_cons]
    have hbounds := strength_bounds op
    have hbinary : Strength.binary < op.strength := by
      rcases op with op | op <;> cases op <;> decide
    have hright := ihr.1.loops.right hs'
    refine ⟨.of_loops (ihl.1.first.append _)
      (ihl.1.loops.append hs hright (symbol_infixOp op).2.1 loc) hbinary hbounds.2.2.2.2
      (isArrow_apply op loc l r) fun op' hne hstrength => ?_,
      isArrow_apply op loc l r, .inr hbinary⟩
    obtain rfl := eq_of_strength_logical hstrength
    exact (ihl.1.grouped op' hne hs).append hne (.single hright)
      (symbol_infixOp (.logical op')).2.1 loc
  | @grouped op loc loc' s l a b ws ws' hop hs hl hr ihl ihr =>
    rw [List.map_append, List.map_cons]
    have hbounds := strength_bounds (.logical op)
    have hbinary : Strength.binary < (InfixOp.logical op).strength := by
      cases op <;> decide
    have hright := ihr.1.grouped op hop (Nat.le_refl _)
    refine ⟨.of_loops (ihl.1.first.append _)
      (ihl.1.loops.group hs hright (symbol_infixOp (.logical op)).2.1 loc) hbinary
      hbounds.2.2.2.2 rfl
      fun op' hne hstrength => ?_, rfl, .inr hbinary⟩
    cases eq_of_strength_logical hstrength
    exact (ihl.1.grouped op hne hs).append hne hright (symbol_infixOp (.logical op)).2.1 loc
  | @conditional loc s s' s'' t c a ws ws' ws'' hs ht hs' hc hs'' ha iht ihc iha =>
    rw [List.map_append, List.map_append]
    have hbinary : Strength.binary < s := by
      rcases iht.2.2 with hle | hlt
      · omega
      · exact hlt
    have hfirst := (iht.1.first.append (.punct .question :: ws'.map lexeme)).append
      (.punct .colon :: ws''.map lexeme)
    refine ⟨.of_assign hfirst (Nat.le_refl _) (.assign hfirst ?_ rfl), rfl, .inl (Nat.le_refl _)⟩
    exact (ReadsExpr.binary_of_loops iht.1.loops hbinary).choice iht.2.1 rfl ihc.1.assign rfl
      iha.1.assign loc
  | @assign loc op s e v ws ws' hop ht he hs hv ihe ihv =>
    rw [List.map_append, List.map_cons]
    have htarget := ihe.1.readsExpr ihe.2
    refine ⟨.of_assign (htarget.first.append _) (by decide) ?_, rfl, .inl (by decide)⟩
    exact .assignment htarget.first (ReadsExpr.binary_of_loops htarget.loops (by decide)) ihe.2 ht
      (symbol_assignOp hop).2.1 ihv.1.assign loc
  | none => exact ⟨.nil, nofun⟩
  | last hs h ih =>
    refine ⟨.last ih.1, fun x hx => ?_⟩
    rw [List.mem_singleton.mp hx]
    exact ih.2.1
  | more hs h hne hes ih ihes =>
    rw [List.map_append]
    refine ⟨.more ih.1 rfl hne ihes.1, fun x hx => ?_⟩
    rcases List.mem_cons.mp hx with rfl | hx
    · exact ih.2.1
    · exact ihes.2 x hx

/-! ## Programs -/

theorem Legible.length_le (h : Legible t ls) : ls.length ≤ t.length := by
  induction h with
  | nil => exact Nat.le_refl 0
  | @cons gap t r l ls hgap hspells hparted h ih =>
    obtain ⟨c, w, rfl, -⟩ := Scanning.exists_head_of_spells hspells
    simp only [List.length_cons, List.length_append]
    omega

theorem Legible.shebangLine?_eq (h : Legible t ls) : Scanning.shebangLine? t = none := by
  cases h with
  | nil => rfl
  | @cons gap t r l ls hgap hspells hparted h =>
    obtain ⟨c, w, rfl, -, hhash, -⟩ := Scanning.exists_head_of_spells hspells
    have hne : ∀ rest : List Char, Scanning.shebangLine? (c :: rest) = none := by
      intro rest
      unfold Scanning.shebangLine?
      split
      · next heq =>
        cases heq
        exact absurd rfl hhash
      · rfl
    rcases hgap with rfl | rfl
    · exact hne _
    · rfl

namespace Parse

variable {chars : List Char}

theorem initial_eq {t : Token} {s : Scanner}
    (h : Runs Scanning.next (.ofChars chars 0 slashStartsRegexp) t s) :
    ParserState.initial (.ofChars chars 0 slashStartsRegexp) {} = .ok {
      scanner := s, token := t, prevKind := none, prevStop := .first, module := false
      bareReturns := false, comments := t.comments.reverse
      context := { strict := false, isAsync := false } } := by
  unfold ParserState.initial
  have hnext : Scanning.next { Scanner.ofChars chars 0 slashStartsRegexp with strict := false }
      = .ok t s := h
  rw [hnext]

theorem exists_initial (h : Legible chars ls) (hslash : ∀ l ∈ ls.head?, isSlash l = false)
    (harrow : ∀ x ∈ ls, x ≠ .punct .arrow) :
    ∃ st, ParserState.initial (.ofChars chars 0 slashStartsRegexp) {} = .ok st ∧ Exact st ls := by
  have hahead : Scanning.Ahead (.ofChars chars 0 slashStartsRegexp) ls :=
    ⟨h, ⟨[], rfl, rfl⟩, h.shebangLine?_eq, rfl, rfl⟩
  cases ls with
  | nil =>
    obtain ⟨t, hrun, hend, hnewline, hcomments⟩ := Scanning.next_of_end hahead
    refine ⟨_, initial_eq hrun, ⟨⟨⟨hnewline, hcomments, ?_, ⟨rfl, rfl⟩, rfl, rfl⟩,
      Nat.zero_le _, harrow⟩,
      hend, hahead⟩⟩
    rw [hcomments, List.reverse_nil]
  | cons l ls =>
    obtain ⟨t, s', hrun, hnewline, hcomments, hchars, hshebang, hread⟩ :=
      Scanning.next_of_ahead hahead
    have hcalm : t.comments.reverse = [] := by rw [hcomments, List.reverse_nil]
    have hlength : (l :: ls).length ≤ s'.chars.length := by
      rw [hchars]
      exact h.length_le
    rcases hread with ⟨heq, hrest⟩ | ⟨p, rfl, hmisread⟩
    · exact ⟨_, initial_eq hrun,
        ⟨⟨⟨hnewline, hcomments, hcalm, ⟨rfl, rfl⟩, rfl, hshebang⟩, hlength, harrow⟩, heq, hrest⟩⟩
    · have hnone := hslash _ rfl
      rcases hmisread.slash with rfl | rfl <;> cases hnone

end Parse

theorem parse_of_passes {text : String} {P : List Stmt → Prop} (hlegible : Legible text.toList ls)
    (hslash : ∀ l ∈ ls.head?, isSlash l = false) (harrow : ∀ x ∈ ls, x ≠ .punct .arrow)
    (h : ∀ n, ls.length < n →
      Passes {} (statementList .endOfInput (topItem (Grammar.levels n))) ls [] P) :
    ∃ p, parse {} text = .ok p ∧ P p.body ∧ p.comments = [] ∧ p.shebang = none := by
  obtain ⟨st, hinitial, hexact⟩ := exists_initial hlegible hslash harrow
  have hlength : ls.length < text.toList.length + 2 := by
    have := hlegible.length_le
    omega
  obtain ⟨body, st', hlist, hat, -, hbody⟩ :=
    h _ hlength st (.inl hexact) (ParserState.targets_initial hinitial)
  have hcomments : st'.comments.reverse = [] := by rw [hat.facing.calm.comments, List.reverse_nil]
  obtain ⟨p, hprogram, hbody, hp⟩ : ∃ p,
      Runs (program (Grammar.levels (text.toList.length + 2))) st p
      st' ∧ P p.body ∧ p.comments = [] ∧ p.shebang = none :=
    ⟨_, Runs.bind hlist (Runs.bind (Runs.pure _ _) rfl), hbody, hcomments, hat.facing.calm.shebang⟩
  refine ⟨p, ?_, hbody, hp⟩
  show Except.bind (ParserState.initial (.ofChars text.toList 0 slashStartsRegexp) {}) _ = _
  rw [hinitial, Except.bind, hprogram]
  rfl

end Laconic
