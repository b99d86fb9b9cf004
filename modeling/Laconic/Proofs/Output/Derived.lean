import Laconic.Proofs.Grammar.Acceptance
import Laconic.Proofs.Output.Writes

/-!
# Layouts of expressions

An expression of names, literals, operators, accesses, calls and `new` is laid out with no
more parentheses than the strengths of its operators ask for.  The tokens of its layout are
derived by the grammar of phrases, which is shown by induction on the expression for each
strength that its place may ask for.
-/

namespace Laconic

open Parse (InfixOp)
open Written

/-! ## Expressions -/

/-- Expressions made of names, literals, operators, accesses and calls. -/
inductive Expr.IsOperation : Expr → Prop where
  | ident {id : Ident} (h : isIdentifierName id.name = true) (hword : Word.ofText? id.name = none) :
    IsOperation (.ident id)
  | num {loc : Span} {x : Float} (hf : x.isFinite = true) (hs : Number.signBit x = false) :
    IsOperation (.num loc x)
  | str {lit : StringLit} (h : lit.raw = none) : IsOperation (.str lit)
  | this {loc : Span} : IsOperation (.this loc)
  | unary {loc : Span} {op : UnaryOp} {e : Expr} (h : IsOperation e) : IsOperation (.unary loc op e)
  | update {loc : Span} {op : UpdateOp} {before : Bool} {e : Expr} (h : IsOperation e)
    (ht : Parse.isSimpleTarget false e = true) : IsOperation (.update loc op before e)
  | binary {loc : Span} {op : BinaryOp} {l r : Expr} (hl : IsOperation l) (hr : IsOperation r) :
    IsOperation (.binary loc op l r)
  | logical {loc : Span} {op : LogicalOp} {l r : Expr} (hl : IsOperation l) (hr : IsOperation r) :
    IsOperation (.logical loc op l r)
  | conditional {loc : Span} {t c a : Expr} (ht : IsOperation t) (hc : IsOperation c)
    (ha : IsOperation a) : IsOperation (.conditional loc t c a)
  | assign {loc : Span} {op : AssignOp} {e v : Expr} (hop : op.isSpelled = true)
    (he : IsOperation e) (ht : Parse.isSimpleTarget false e = true) (hv : IsOperation v) :
    IsOperation (.assign loc op (.expr e) v)
  | sequence {loc : Span} {es : List Expr} (hes : ∀ e ∈ es, IsOperation e)
    (hitems : ∀ e ∈ es, e.isSequence = false) (hlen : 2 ≤ es.length) :
    IsOperation (.sequence loc es)
  | dotted {loc : Span} {e : Expr} {id : Ident} (h : IsOperation e)
    (hname : isIdentifierName id.name = true) : IsOperation (.member loc false e (.ident id))
  | computed {loc : Span} {e i : Expr} (h : IsOperation e) (hi : IsOperation i) :
    IsOperation (.member loc false e (.computed i))
  | call {loc : Span} {pure : Bool} {e : Expr} {es : List Expr} (h : IsOperation e)
    (hes : ∀ e ∈ es, IsOperation e) : IsOperation (.call loc false pure e es)
  | new {loc : Span} {pure : Bool} {e : Expr} {es : List Expr} (h : IsOperation e)
    (hes : ∀ e ∈ es, IsOperation e) : IsOperation (.new loc pure e es)

/-! ## Expressions in their places -/

namespace Expr

open Layout

variable {es : List Expr} {id : Ident} {l r : Expr}

/-- The layouts of an expression write tokens that are derived for it. -/
structure Laid (e : Expr) : Prop where
  /-- In a place that does not ask for parentheses.  Where the expression is stronger than
  an operator it may count as less strong than it is. -/
  bare : ∀ least, Strength.assign ≤ least → least ≤ Strength.call → least ≤ e.strength →
    ∃ s ws, least ≤ s ∧ (s = e.strength ∨ Strength.new ≤ s) ∧ Derives (.expr s e) ws ∧
      (inner {} least e).Writes ws
  /-- Before an access, and before arguments unless they would go to a `new`. -/
  chain : Strength.call ≤ e.strength → ∀ calls, (calls = true ∨ e.containsCall = false) →
    ∃ ws, Derives (.chain calls e) ws ∧ (inner {} Strength.call e).Writes ws
  /-- As a statement or in brackets. -/
  items : ∃ es ws, e.IsSequenceOf es ∧ Derives (.items es) ws ∧
    (inner {} Strength.sequence e).Writes ws

variable {e : Expr} {es : List Expr}

theorem isSequenceOf_self (h : e.isSequence = false) : e.IsSequenceOf [e] :=
  ⟨fun _ hx => List.mem_singleton.mp hx ▸ h, .inl rfl⟩

theorem Laid.of_operator (s : Nat) (hs : e.strength = s) (hassign : Strength.assign ≤ s)
    (hcall : s < Strength.call) (hseq : e.isSequence = false)
    (h : ∃ ws, Derives (.expr s e) ws ∧ ∀ least, (inner {} least e).Writes ws) : e.Laid := by
  subst hs
  obtain ⟨ws, hderives, hwrites⟩ := h
  exact {
    bare := fun least _ _ hleast => ⟨e.strength, ws, hleast, .inl rfl, hderives, hwrites least⟩
    chain := fun hstrong => absurd hcall (Nat.not_lt.mpr hstrong)
    items := ⟨[e], ws, isSequenceOf_self hseq, .last hassign hderives, hwrites _⟩ }

theorem Laid.of_chain (hseq : e.isSequence = false)
    (h : ∀ calls, (calls = true ∨ e.containsCall = false) →
      ∃ ws, Derives (.chain calls e) ws ∧ ∀ least, (inner {} least e).Writes ws) : e.Laid := by
  obtain ⟨ws, hderives, hwrites⟩ := h true (.inl rfl)
  exact {
    bare := fun least _ hleast _ =>
      ⟨Strength.call, ws, hleast, .inr (by decide), .chain hderives, hwrites least⟩
    chain := fun _ calls hcalls => by
      obtain ⟨ws, hderives, hwrites⟩ := h calls hcalls
      exact ⟨ws, hderives, hwrites _⟩
    items := ⟨[e], ws, isSequenceOf_self hseq, .last (by decide) (.chain hderives), hwrites _⟩ }

namespace Laid

theorem parens (h : e.Laid) : ∃ ws, Derives (.operand e) ws ∧
    (Layout.parens (inner {} Strength.sequence e)).Writes ws := by
  obtain ⟨es, ws, hes, hderives, hwrites⟩ := h.items
  exact ⟨_, .parens hes hderives, hwrites.parens⟩

theorem slot (h : e.Laid) (least : Nat) (hassign : Strength.assign ≤ least)
    (hcall : least ≤ Strength.call) :
    ∃ s ws, least ≤ s ∧ (s = e.strength ∨ Strength.new ≤ s) ∧ Derives (.expr s e) ws ∧
      (Layout.slot least e (inner {} · e)).Writes ws := by
  by_cases hleast : e.strength < least
  · obtain ⟨ws, hderives, hwrites⟩ := h.parens
    exact ⟨Strength.call, ws, hcall, .inr (by decide), .chain (.head hderives),
      hwrites.slot_of_lt hleast⟩
  · obtain ⟨s, ws, hs, hstrength, hderives, hwrites⟩ :=
      h.bare least hassign hcall (Nat.not_lt.mp hleast)
    exact ⟨s, ws, hs, hstrength, hderives, hwrites.slot_of_le (Nat.not_lt.mp hleast)⟩

theorem slot_call (h : e.Laid) {calls : Bool} (hcalls : calls = true ∨ e.containsCall = false) :
    ∃ ws, Derives (.chain calls e) ws ∧ (Layout.slot Strength.call e (inner {} · e)).Writes ws := by
  by_cases hleast : e.strength < Strength.call
  · obtain ⟨ws, hderives, hwrites⟩ := h.parens
    exact ⟨ws, .head hderives, hwrites.slot_of_lt hleast⟩
  · obtain ⟨ws, hderives, hwrites⟩ := h.chain (Nat.not_lt.mp hleast) calls hcalls
    exact ⟨ws, hderives, hwrites.slot_of_le (Nat.not_lt.mp hleast)⟩

/-- The callee of a `new`, whose own arguments must not be taken for those of the `new`. -/
theorem callee (h : e.Laid) : ∃ ws, Derives (.chain false e) ws ∧
    (if e.containsCall then Layout.parens (inner {} Strength.sequence e)
      else Layout.slot Strength.call e (inner {} · e)).Writes ws := by
  cases hcall : e.containsCall with
  | true =>
    obtain ⟨ws, hderives, hwrites⟩ := h.parens
    exact ⟨ws, .head hderives, hwrites⟩
  | false => exact h.slot_call (.inr hcall)

/-- An operand of a logical operator: on the right it is either stronger or a chain of the
same operator. -/
theorem logicalOperand (h : e.Laid) (op : LogicalOp) (right : Bool) :
    ∃ s ws, ((InfixOp.logical op).strength + right.toNat ≤ s ∨
        op ≠ .nullish ∧ s = (InfixOp.logical op).strength ∧ ∃ loc a b, e = .logical loc op a b) ∧
      Derives (.expr s e) ws ∧ (Layout.logicalOperand op e right (inner {} · e)).Writes ws := by
  have hstrength : Strength.assign ≤ (InfixOp.logical op).strength ∧
      (InfixOp.logical op).strength + 1 ≤ Strength.new := by
    cases op <;> decide
  have hnew : Strength.new ≤ Strength.call := by decide
  have hright := right.toNat_le
  rw [Layout.logicalOperand_eq]
  split
  · obtain ⟨ws, hderives, hwrites⟩ := h.parens
    exact ⟨Strength.call, ws, .inl (by omega), .chain (.head hderives), hwrites⟩
  · by_cases hsame : e.logicalOp? = some op ∧ op ≠ .nullish
    · obtain ⟨s, ws, hs, hexact, hderives, hwrites⟩ :=
        h.slot (InfixOp.logical op).strength hstrength.1 (by omega)
      have hflag : (right && !(e.logicalOp? == some op && op != .nullish)) = false := by
        simp [hsame]
      rw [hflag]
      refine ⟨s, ws, ?_, hderives, hwrites⟩
      rcases hexact with rfl | hs
      · cases e with
        | logical loc op' a b =>
          cases hsame.1
          exact .inr ⟨hsame.2, rfl, loc, a, b, rfl⟩
        | _ => cases hsame.1
      · exact .inl (by omega)
    · have hflag : (right && !(e.logicalOp? == some op && op != .nullish)) = right := by
        rcases not_and_or.mp hsame with hne | hne
        · simp [hne]
        · simp [not_not.mp hne]
      obtain ⟨s, ws, hs, -, hderives, hwrites⟩ :=
        h.slot ((InfixOp.logical op).strength + right.toNat) (by omega) (by omega)
      rw [hflag]
      exact ⟨s, ws, .inl hs, hderives, hwrites⟩

theorem commaList (hes : ∀ e ∈ es, e.Laid) :
    ∃ ws, Derives (.items es) ws ∧ (Layout.commaList (exprs {} Strength.assign es)).Writes ws := by
  induction es with
  | nil => exact ⟨[], .none, writes_empty⟩
  | cons e es ih =>
    obtain ⟨s, ws, hs, -, hderives, hwrites⟩ :=
      (hes e List.mem_cons_self).slot Strength.assign (by decide) (by decide)
    cases es with
    | nil =>
      refine ⟨ws, .last hs hderives, ?_⟩
      rw [← List.append_nil ws]
      exact hwrites.append writes_empty
    | cons e' es =>
      obtain ⟨ws', hderives', hwrites'⟩ := ih fun x hx => hes x (List.mem_cons_of_mem _ hx)
      refine ⟨_, .more hs hderives (List.cons_ne_nil _ _) hderives', ?_⟩
      have hcomma : comma.Writes [punct .comma rfl] :=
        (writes_token rfl).append writes_space
      exact hwrites.append (hcomma.append hwrites')

end Laid

/-! ## By the outermost node -/

theorem laid_ident (h : isIdentifierName id.name = true) (hword : Word.ofText? id.name = none) :
    (Expr.ident id).Laid :=
  .of_chain rfl fun _ _ => ⟨_, .head (.ident h hword), fun _ => writes_ident h⟩

theorem laid_str {lit : StringLit} (h : lit.raw = none) : (Expr.str lit).Laid := by
  refine .of_chain rfl fun _ _ => ⟨_, .head (.string h), fun _ => ?_⟩
  have htext : (Written.string lit.value).text
      = (lit.raw.getD (Spelling.quote {} lit.value)).toList := by
    rw [text_string, h, Option.getD_none]
  exact (writes_map _).append (writes_token htext)

theorem laid_this {loc : Span} : (Expr.this loc).Laid :=
  .of_chain rfl fun _ _ =>
    ⟨_, .head .this, fun _ => (writes_map _).append (writes_token rfl)⟩

section Number

variable {x : Float}

theorem number_eq (hf : x.isFinite = true) (hs : Number.signBit x = false) :
    Layout.number x = token (Spelling.numeral x) := by
  obtain ⟨hnan, hinf⟩ := isNaN_and_isInf_of_isFinite hf
  unfold Layout.number
  rw [hnan, hinf, hs]
  rfl

theorem laid_num {loc : Span} (hf : x.isFinite = true) (hs : Number.signBit x = false) :
    (Expr.num loc x).Laid := by
  have h := exists_numeral hf hs
  have hwrites : (map loc ++ Layout.number x).Writes [Written.number (.plain h)] := by
    rw [number_eq hf hs]
    exact (writes_map _).append (writes_token (text_number _))
  exact .of_chain rfl fun _ _ => ⟨_, .head (.number h), fun _ => hwrites⟩

end Number

theorem laid_unary (h : e.Laid) (loc : Span) (op : UnaryOp) : (Expr.unary loc op e).Laid := by
  obtain ⟨s, ws, hs, -, hderives, hwrites⟩ := h.slot Strength.unary (by decide) (by decide)
  refine .of_operator Strength.unary rfl (by decide) (by decide) rfl
    ⟨_, .unary hs hderives, fun _ => ?_⟩
  have hspace : (onlyIf (op.text.toList.any Char.isAlpha) space).Writes [] := by
    unfold onlyIf
    split
    · exact writes_space
    · exact writes_empty
  exact (((writes_map loc).append (writes_token (symbol_unaryOp op).1)).append hspace).append
    hwrites

theorem laid_update (h : e.Laid) (ht : Parse.isSimpleTarget false e = true) (loc : Span)
    (op : UpdateOp) (before : Bool) : (Expr.update loc op before e).Laid := by
  obtain ⟨ws, hderives, hwrites⟩ := h.slot_call (.inl rfl)
  have hop := writes_token (symbol_updateOp op).1
  cases before with
  | false =>
    exact .of_operator Strength.postfixOp rfl (by decide) (by decide) rfl
      ⟨_, .updateAfter ht hderives, fun _ => (writes_map loc).append (hwrites.append hop)⟩
  | true =>
    exact .of_operator Strength.unary rfl (by decide) (by decide) rfl
      ⟨_, .updateBefore ht hderives, fun _ => (writes_map loc).append (hop.append hwrites)⟩

theorem laid_binary (hl : l.Laid) (hr : r.Laid) (loc : Span) (op : BinaryOp) :
    (Expr.binary loc op l r).Laid := by
  have hbounds : Strength.assign ≤ (InfixOp.binary op).leftStrength ∧
      (InfixOp.binary op).leftStrength ≤ Strength.call ∧
      Strength.assign ≤ (InfixOp.binary op).rightStrength ∧
      (InfixOp.binary op).rightStrength ≤ Strength.call ∧
      Strength.assign ≤ (InfixOp.binary op).strength ∧
      (InfixOp.binary op).strength < Strength.call := by
    cases op <;> decide
  obtain ⟨hl₁, hl₂, hr₁, hr₂, hop₁, hop₂⟩ := hbounds
  obtain ⟨s, ws, hs, -, hderives, hwrites⟩ := hl.slot _ hl₁ hl₂
  obtain ⟨s', ws', hs', -, hderives', hwrites'⟩ := hr.slot _ hr₁ hr₂
  have hoperation :
      Derives (.expr (InfixOp.binary op).strength ((InfixOp.binary op).apply loc l r)) _ :=
    .operation hs hderives hs' hderives'
  refine .of_operator _ rfl hop₁ hop₂ rfl ⟨_, hoperation, fun _ => ?_⟩
  have hinner : ∀ least, inner {} least (.binary loc op l r) = map loc
      ++ Layout.slot (InfixOp.binary op).leftStrength l (inner {} · l) ++ operator op.text
      ++ Layout.slot (InfixOp.binary op).rightStrength r (inner {} · r) := by
    cases op <;> exact fun _ => rfl
  rw [hinner]
  exact hwrites.infixed hwrites' loc (symbol_infixOp (.binary op)).1

theorem laid_logical (hl : l.Laid) (hr : r.Laid) (loc : Span) (op : LogicalOp) :
    (Expr.logical loc op l r).Laid := by
  obtain ⟨s, ws, hs, hderives, hwrites⟩ := hl.logicalOperand op false
  obtain ⟨s', ws', hs', hderives', hwrites'⟩ := hr.logicalOperand op true
  have hleft : (InfixOp.logical op).strength ≤ s := by
    rcases hs with hs | ⟨-, rfl, -⟩
    · exact hs
    · exact Nat.le_refl _
  have hbounds : Strength.assign ≤ (InfixOp.logical op).strength ∧
      (InfixOp.logical op).strength < Strength.call := by
    cases op <;> decide
  refine .of_operator _ rfl hbounds.1 hbounds.2 rfl ⟨ws ++ symbol op.text :: ws', ?_, fun _ => ?_⟩
  · rcases hs' with hs' | ⟨hop, rfl, loc', a, b, rfl⟩
    · have hright : (InfixOp.logical op).rightStrength ≤ s' := hs'
      exact Derives.operation hleft hderives hright hderives'
    · exact .grouped hop hleft hderives hderives'
  · exact hwrites.infixed hwrites' loc (symbol_infixOp (.logical op)).1

theorem laid_conditional {t c a : Expr} (ht : t.Laid) (hc : c.Laid) (ha : a.Laid) (loc : Span) :
    (Expr.conditional loc t c a).Laid := by
  obtain ⟨s, ws, hs, -, hderives, hwrites⟩ :=
    ht.slot (Strength.conditional + 1) (by decide) (by decide)
  obtain ⟨s', ws', hs', -, hderives', hwrites'⟩ := hc.slot Strength.assign (by decide) (by decide)
  obtain ⟨s'', ws'', hs'', -, hderives'', hwrites''⟩ :=
    ha.slot Strength.assign (by decide) (by decide)
  refine .of_operator Strength.conditional rfl (by decide) (by decide) rfl
    ⟨_, .conditional hs hderives hs' hderives' hs'' hderives'', fun _ => ?_⟩
  have hquestion : (operator "?").Writes [punct .question rfl] := Writes.operator (by decide)
  have hcolon : (operator ":").Writes [punct .colon rfl] := Writes.operator (by decide)
  have h := (((((writes_map loc).append hwrites).append hquestion).append hwrites'.guarded).append
    hcolon).append hwrites''
  exact h.congr (by simp)

theorem laid_assign {v : Expr} {op : AssignOp} (hop : op.isSpelled = true) (he : e.Laid)
    (ht : Parse.isSimpleTarget false e = true) (hv : v.Laid) (loc : Span) :
    (Expr.assign loc op (.expr e) v).Laid := by
  obtain ⟨ws, hderives, hwrites⟩ := he.slot_call (.inl rfl)
  obtain ⟨s', ws', hs', -, hderives', hwrites'⟩ := hv.slot Strength.assign (by decide) (by decide)
  refine .of_operator Strength.assign rfl (by decide) (by decide) rfl
    ⟨_, .assign hop ht hderives hs' hderives',
      fun _ => hwrites.infixed hwrites' loc (symbol_assignOp hop).1⟩

theorem laid_sequence (hes : ∀ e ∈ es, e.Laid) (hitems : ∀ e ∈ es, e.isSequence = false)
    (hlen : 2 ≤ es.length) (loc : Span) : (Expr.sequence loc es).Laid := by
  obtain ⟨ws, hderives, hwrites⟩ := Laid.commaList hes
  exact {
    bare := fun least hassign _ hleast =>
      absurd (Nat.le_trans hassign hleast) (Nat.not_succ_le_zero _)
    chain := fun hstrong => absurd hstrong (Nat.not_succ_le_zero _)
    items := ⟨es, ws, ⟨hitems, .inr ⟨loc, rfl, hlen⟩⟩, hderives, (writes_map loc).append hwrites⟩ }

theorem laid_computed {i : Expr} (h : e.Laid) (hi : i.Laid) (loc : Span) :
    (Expr.member loc false e (.computed i)).Laid := by
  refine .of_chain rfl fun calls hcalls => ?_
  obtain ⟨ws, hderives, hwrites⟩ := h.slot_call hcalls
  obtain ⟨es, ws', hes, hderives', hwrites'⟩ := hi.items
  refine ⟨_, .index hderives hes hderives', fun _ => ?_⟩
  have hindex : (Layout.slot Strength.sequence i (inner {} · i)).Writes ws' :=
    hwrites'.slot_of_le (Nat.zero_le _)
  have hopen : (token "[").Writes [punct .leftBracket rfl] := writes_token rfl
  have hclose : (token "]").Writes [punct .rightBracket rfl] := writes_token rfl
  have h := ((writes_map loc).append hwrites).append
    (((writes_empty.append hopen).append hindex.guarded).append hclose)
  exact h.congr (by simp)

theorem not_isDigits_getLast {calls : Bool} {ws : List Written} (h : Derives (.chain calls e) ws)
    (hnum : ∀ loc x, e ≠ .num loc x) : ∀ w ∈ ws.getLast?, ¬w.IsDigits := by
  have hclose : ¬(punct .rightParen rfl).IsDigits ∧ ¬(punct .rightBracket rfl).IsDigits ∧
      ¬(word .this).IsDigits := by
    unfold Written.IsDigits
    decide
  have hlast : ∀ (ws : List Written) {w : Written}, ¬w.IsDigits →
      ∀ v ∈ (ws ++ [w]).getLast?, ¬v.IsDigits := by
    intro ws w hw v hv
    rw [List.getLast?_append] at hv
    cases hv
    exact hw
  have hname : ∀ {text : String} (h : isIdentifierName text = true), ¬(name text h).IsDigits :=
    fun h => not_isDigits_of_name h rfl
  cases h with
  | head h =>
    cases h with
    | ident h _ => exact hlast [] (hname h)
    | number h => exact absurd rfl (hnum _ _)
    | @string lit _ =>
      refine hlast [] fun hdigits => ?_
      obtain ⟨q, cs, hcs, hq, -⟩ := Literal.toList_quote {} lit.value
      have hd : q.isDigit = true := by
        apply hdigits
        rw [text_string, hcs]
        exact List.mem_cons_self
      rcases hq with rfl | rfl <;> cases hd
    | this => exact hlast [] hclose.2.2
    | parens _ _ => exact hlast _ hclose.1
  | new _ _ => exact hlast _ hclose.1
  | @dot _ _ _ _ ws _ _ hn =>
    rw [← List.singleton_append, ← List.append_assoc]
    exact hlast _ (hname hn)
  | dotDigits _ _ hn => exact hlast [_, punct .dot rfl] (hname hn)
  | index _ _ _ => exact hlast _ hclose.2.1
  | call _ _ => exact hlast _ hclose.1

theorem laid_dotted_of (hname : isIdentifierName id.name = true) (hdigits : isDigitsOnly e = false)
    (h : ∀ calls, (calls = true ∨ e.containsCall = false) → ∃ ws, Derives (.chain calls e) ws ∧
      (Layout.slot Strength.call e (inner {} · e)).Writes ws ∧ ∀ w ∈ ws.getLast?, ¬w.IsDigits)
    (loc : Span) : (Expr.member loc false e (.ident id)).Laid := by
  refine .of_chain rfl fun calls hcalls => ?_
  obtain ⟨ws, hderives, hwrites, hlast⟩ := h calls hcalls
  refine ⟨_, .dot hderives hlast hname, fun _ => ?_⟩
  have hdot : (token ".").Writes [punct .dot rfl] := writes_token rfl
  have h := ((writes_map loc).append hwrites).append
    ((writes_empty.append hdot).append (writes_ident hname))
  show (_ ++ (onlyIf (isDigitsOnly e) (raw ".") ++ token "." ++ Layout.ident {} id)).Writes _
  rw [hdigits]
  exact h.congr (by simp)

/-- After a number a second point is needed if the first one would belong to it. -/
theorem laid_dotted_num {x : Float} (hf : x.isFinite = true) (hs : Number.signBit x = false)
    (hname : isIdentifierName id.name = true) (loc loc' : Span) :
    (Expr.member loc false (.num loc' x) (.ident id)).Laid := by
  have h := exists_numeral hf hs
  have hslot : Layout.slot Strength.call (.num loc' x) (inner {} · (.num loc' x))
      = map loc' ++ token (Spelling.numeral x) := by
    have hinner (least : Nat) : inner {} least (.num loc' x) = map loc' ++ number x := rfl
    funext noIn
    rw [← number_eq hf hs]
    simp [Layout.slot, strength, isNaN_and_isInf_of_isFinite hf, hs, isInOperation, hinner,
      Strength.call, Strength.primary]
  have htoken : (token (Spelling.numeral x)).Writes [Written.number (.plain h)] :=
    writes_token (text_number _)
  have honly : isDigitsOnly (.num loc' x) = (Spelling.numeral x).toList.all Char.isDigit := by
    simp [isDigitsOnly, hf, hs]
  cases hdigits : isDigitsOnly (.num loc' x) with
  | false =>
    refine laid_dotted_of hname hdigits (fun _ _ => ⟨_, .head (.number h), ?_, ?_⟩) loc
    · rw [hslot]
      exact (writes_map loc').append htoken
    · intro w hw hall
      obtain rfl : Written.number (.plain h) = w := Option.some.inj hw
      rw [Written.IsDigits, text_number] at hall
      rw [honly, List.all_eq_true.mpr hall] at hdigits
      cases hdigits
  | true =>
    have hall := List.all_eq_true.mp (honly.symm.trans hdigits)
    refine .of_chain rfl fun _ _ => ⟨_, .dotDigits h hall hname, fun _ => ?_⟩
    have hne : (Spelling.numeral x).toList ≠ [] := by
      obtain ⟨c, cs, hcs, -⟩ := (Written.number (.plain h)).exists_text
      rw [text_number] at hcs
      rw [hcs]
      exact List.cons_ne_nil _ _
    have hbrace : Spelling.numeral x ≠ "\x7d" := by
      intro heq
      rw [heq] at hall
      exact absurd (hall '\x7d' List.mem_cons_self) (by decide)
    have hpoint : (token (Spelling.numeral x) ++ raw ".").Writes
        [Written.number (.pointed h hall)] :=
      writes_pointed hne hbrace (text_number _)
    have hdot : (token ".").Writes [punct .dot rfl] := writes_token rfl
    show (map loc ++ Layout.slot Strength.call (.num loc' x) (inner {} · (.num loc' x))
      ++ (onlyIf (isDigitsOnly (.num loc' x)) (raw ".") ++ token "."
        ++ Layout.ident {} id)).Writes _
    rw [hslot, hdigits]
    have h := ((writes_map loc).append (writes_map loc')).append
      (hpoint.append (hdot.append (writes_ident hname)))
    exact h

theorem laid_dotted (he : e.IsOperation) (h : e.Laid) (hname : isIdentifierName id.name = true)
    (loc : Span) : (Expr.member loc false e (.ident id)).Laid := by
  by_cases hnum : ∃ loc' x, e = .num loc' x
  · obtain ⟨loc', x, rfl⟩ := hnum
    cases he with
    | num hf hs => exact laid_dotted_num hf hs hname loc loc'
  · have hne : ∀ loc' x, e ≠ .num loc' x := fun loc' x heq => hnum ⟨loc', x, heq⟩
    refine laid_dotted_of hname ?_ (fun calls hcalls => ?_) loc
    · cases e <;> first | rfl | exact absurd rfl (hne _ _)
    · obtain ⟨ws, hderives, hwrites⟩ := h.slot_call hcalls
      exact ⟨ws, hderives, hwrites, not_isDigits_getLast hderives hne⟩

theorem laid_call (h : e.Laid) (hes : ∀ e ∈ es, e.Laid) (loc : Span) (pure : Bool) :
    (Expr.call loc false pure e es).Laid := by
  refine .of_chain rfl fun calls hcalls => ?_
  obtain rfl : calls = true := hcalls.resolve_right nofun
  obtain ⟨ws, hderives, hwrites⟩ := h.slot_call (.inl rfl)
  obtain ⟨args, hderives', hwrites'⟩ := Laid.commaList hes
  refine ⟨_, .call hderives hderives', fun _ => ?_⟩
  have h := (((writes_map loc).append hwrites).append writes_empty).append hwrites'.parens
  exact h.congr (by simp)

theorem laid_new (h : e.Laid) (hes : ∀ e ∈ es, e.Laid) (loc : Span) (pure : Bool) :
    (Expr.new loc pure e es).Laid := by
  obtain ⟨ws, hderives, hwrites⟩ := h.callee
  obtain ⟨args, hderives', hwrites'⟩ := Laid.commaList hes
  have hnew : (token "new").Writes [word .new] := writes_token rfl
  have hcallee := (((writes_map loc).append hnew).append writes_space).append hwrites
  have hargs : ∀ {least}, (!es.isEmpty || decide (Strength.new < least)) = true →
      (inner {} least (.new loc pure e es)).Writes
        (word .new :: ws ++ punct .leftParen rfl :: args ++ [punct .rightParen rfl]) := by
    intro least hleast
    have h := hcallee.append hwrites'.parens
    show (_ ++ onlyIf (!es.isEmpty || decide (Strength.new < least)) _).Writes _
    rw [hleast]
    exact h.congr (by simp)
  have hchain : ∀ calls, Derives (.chain calls (.new loc pure e es)) _ :=
    fun calls => .new hderives hderives'
  have halone : ∀ {least}, es = [] → least ≤ Strength.new →
      Derives (.expr Strength.new (.new loc pure e es)) (word .new :: ws) ∧
      (inner {} least (.new loc pure e es)).Writes (word .new :: ws) := by
    rintro least rfl hleast
    refine ⟨.newAlone hderives, ?_⟩
    have h := hcallee.append writes_empty
    show (_ ++ onlyIf (false || decide (Strength.new < least)) _).Writes _
    rw [decide_eq_false (Nat.not_lt.mpr hleast)]
    exact h.congr (by simp)
  have hany : ∀ least, least ≤ Strength.call → ∃ s ws, least ≤ s ∧ Strength.new ≤ s ∧
      Derives (.expr s (.new loc pure e es)) ws
      ∧ (inner {} least (.new loc pure e es)).Writes ws := by
    intro least hleast
    by_cases hnew : (!es.isEmpty || decide (Strength.new < least)) = true
    · exact ⟨Strength.call, _, hleast, by decide, .chain (hchain true), hargs hnew⟩
    · simp only [Bool.or_eq_true, Bool.not_eq_true', List.isEmpty_eq_false_iff, decide_eq_true_eq,
        not_or, not_not, Nat.not_lt] at hnew
      obtain ⟨hderives, hwrites⟩ := halone hnew.1 hnew.2
      exact ⟨Strength.new, _, hnew.2, Nat.le_refl _, hderives, hwrites⟩
  exact {
    bare := fun least _ hleast _ => by
      obtain ⟨s, ws, hs, hnew, hderives, hwrites⟩ := hany least hleast
      exact ⟨s, ws, hs, .inr hnew, hderives, hwrites⟩
    chain := fun _ calls _ => ⟨_, hchain calls, hargs (Bool.or_eq_true_iff.mpr (.inr (by decide)))⟩
    items := by
      obtain ⟨s, ws, -, hnew, hderives, hwrites⟩ := hany Strength.sequence (by decide)
      have hassign : Strength.assign ≤ s := Nat.le_trans (by decide) hnew
      exact ⟨_, ws, isSequenceOf_self rfl, .last hassign hderives, hwrites⟩ }

/-- The layouts of an expression of names, literals, operators, accesses and calls write
tokens that are derived for it. -/
theorem IsOperation.laid (h : e.IsOperation) : e.Laid := by
  induction h with
  | ident h hword => exact laid_ident h hword
  | num hf hs => exact laid_num hf hs
  | str h => exact laid_str h
  | this => exact laid_this
  | unary h ih => exact laid_unary ih _ _
  | update h ht ih => exact laid_update ih ht _ _ _
  | binary hl hr ihl ihr => exact laid_binary ihl ihr _ _
  | logical hl hr ihl ihr => exact laid_logical ihl ihr _ _
  | conditional ht hc ha iht ihc iha => exact laid_conditional iht ihc iha _
  | assign hop he ht hv ihe ihv => exact laid_assign hop ihe ht ihv _
  | sequence hes hitems hlen ih => exact laid_sequence ih hitems hlen _
  | dotted h hname ih => exact laid_dotted h ih hname _
  | computed h hi ih ihi => exact laid_computed ih ihi _
  | call h hes ih ihes => exact laid_call ih ihes _ _
  | new h hes ih ihes => exact laid_new ih ihes _ _

theorem IsOperation.isLet_eq (h : e.IsOperation) : e.isLet = false := by
  cases h with
  | @ident id _ hword =>
    by_contra hlet
    rw [Bool.not_eq_false] at hlet
    rw [show id.name = "let" from beq_iff_eq.mp hlet] at hword
    revert hword
    decide
  | _ => rfl

theorem IsOperation.startsStatement_eq (h : e.IsOperation) : e.startsStatement {} = false := by
  induction h with
  | update h ht ih => simp [startsStatement, ih]
  | binary hl hr ihl ihr | logical hl hr ihl ihr => simp [startsStatement, ihl]
  | conditional ht hc ha iht ihc iha => simp [startsStatement, iht]
  | assign hop he ht hv ihe ihv => simp [startsStatement, ihe]
  | @sequence loc es hes hitems hlen ih =>
    cases es with
    | nil => rfl
    | cons e es => simp [startsStatement, firstStartsStatement, ih e List.mem_cons_self]
  | dotted h hname ih => simp [startsStatement, ih]
  | computed h hi ih ihi => simp [startsStatement, ih, h.isLet_eq]
  | call h hes ih ihes => simp [startsStatement, ih]
  | _ => rfl

end Expr

end Laconic
