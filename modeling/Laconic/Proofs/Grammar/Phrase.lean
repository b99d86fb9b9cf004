import Laconic.Proofs.Output.Written
import Laconic.Proofs.Tree.Shape

/-!
# Phrases

A grammar of expressions over tokens, with the binding strengths of the layout: which
tokens make up an operand, an operand with accesses and calls, an expression whose
outermost operator has some strength, and expressions with commas between them.  It
stands between the two directions: what is written for an expression is derived by this
grammar, and what is derived by it is read as the expression.

The parentheses that the grammar asks for are those that the strengths ask for.  Chains
of `&&` or of `||` on the right need none; they are read grouped to the left.
-/

namespace Laconic

open Parse (InfixOp)

variable {ws : List Written}

/-! ## Operators -/

deriving instance DecidableEq for Parse.InfixOp

namespace Parse.InfixOp

/-- The spelling of an operator between operands. -/
def text : InfixOp → String
  | .binary op => op.text
  | .logical op => op.text

/-- How tightly an operation binds. -/
def strength (op : InfixOp) : Nat := Strength.binary + op.precedence

/-- How tightly the operand on the left must bind. -/
def leftStrength : InfixOp → Nat
  | .binary .exp => Strength.postfixOp
  | op => op.strength

/-- How tightly the operand on the right must bind. -/
def rightStrength : InfixOp → Nat
  | .binary .exp => InfixOp.strength (.binary .exp)
  | op => op.strength + 1

end Parse.InfixOp

def AssignOp.isSpelled : AssignOp → Bool
  | .compound op => !op.isBoolean
  | _ => true

/-! ## The grammar -/

/-- Parts of an expression. -/
inductive Phrase where
  /-- A literal, a name, or something in parentheses. -/
  | operand (e : Expr)
  /-- An operand or a `new` expression with accesses after it, and calls if they are allowed. -/
  | chain (calls : Bool) (e : Expr)
  /-- An expression whose outermost operator binds with a strength. -/
  | expr (strength : Nat) (e : Expr)
  /-- Expressions with commas between them. -/
  | items (es : List Expr)

open Written in
/-- Some tokens make up a phrase. -/
inductive Derives : Phrase → List Written → Prop where
  | ident {id : Ident} (h : isIdentifierName id.name = true) (hword : Word.ofText? id.name = none) :
    Derives (.operand (.ident id)) [name id.name h]
  | number {loc : Span} {x : Float} {cs : List Char} (h : IsNumeral x cs) :
    Derives (.operand (.num loc x)) [number (.plain h)]
  | string {lit : StringLit} (h : lit.raw = none) : Derives (.operand (.str lit)) [string lit.value]
  | this {loc : Span} : Derives (.operand (.this loc)) [word .this]
  | parens {e : Expr} {es : List Expr} {ws : List Written} (he : e.IsSequenceOf es)
    (h : Derives (.items es) ws) :
    Derives (.operand e) (punct .leftParen rfl :: ws ++ [punct .rightParen rfl])
  | head {calls : Bool} {e : Expr} {ws : List Written} (h : Derives (.operand e) ws) :
    Derives (.chain calls e) ws
  | new {calls pure : Bool} {loc : Span} {e : Expr} {es : List Expr} {ws args : List Written}
    (h : Derives (.chain false e) ws) (hargs : Derives (.items es) args) :
    Derives (.chain calls (.new loc pure e es))
      (word .new :: ws ++ punct .leftParen rfl :: args ++ [punct .rightParen rfl])
  | dot {calls : Bool} {loc : Span} {e : Expr} {id : Ident} {ws : List Written}
    (h : Derives (.chain calls e) ws) (hdigits : ∀ w ∈ ws.getLast?, ¬w.IsDigits)
    (hname : isIdentifierName id.name = true) :
    Derives (.chain calls (.member loc false e (.ident id)))
      (ws ++ [punct .dot rfl, name id.name hname])
  | dotDigits {calls : Bool} {loc loc' : Span} {x : Float} {id : Ident} {cs : List Char}
    (h : IsNumeral x cs) (hdigits : ∀ c ∈ cs, c.isDigit = true)
    (hname : isIdentifierName id.name = true) :
    Derives (.chain calls (.member loc false (.num loc' x) (.ident id)))
      [number (.pointed h hdigits), punct .dot rfl, name id.name hname]
  | index {calls : Bool} {loc : Span} {e i : Expr} {es : List Expr} {ws ws' : List Written}
    (h : Derives (.chain calls e) ws) (hi : i.IsSequenceOf es) (hes : Derives (.items es) ws') :
    Derives (.chain calls (.member loc false e (.computed i)))
      (ws ++ punct .leftBracket rfl :: ws' ++ [punct .rightBracket rfl])
  | call {pure : Bool} {loc : Span} {e : Expr} {es : List Expr} {ws args : List Written}
    (h : Derives (.chain true e) ws) (hargs : Derives (.items es) args) :
    Derives (.chain true (.call loc false pure e es))
      (ws ++ punct .leftParen rfl :: args ++ [punct .rightParen rfl])
  | chain {e : Expr} {ws : List Written} (h : Derives (.chain true e) ws) :
    Derives (.expr Strength.call e) ws
  | newAlone {pure : Bool} {loc : Span} {e : Expr} {ws : List Written}
    (h : Derives (.chain false e) ws) :
    Derives (.expr Strength.new (.new loc pure e [])) (word .new :: ws)
  | updateAfter {loc : Span} {op : UpdateOp} {e : Expr} {ws : List Written}
    (ht : Parse.isSimpleTarget false e = true) (h : Derives (.chain true e) ws) :
    Derives (.expr Strength.postfixOp (.update loc op false e)) (ws ++ [symbol op.text])
  | updateBefore {loc : Span} {op : UpdateOp} {e : Expr} {ws : List Written}
    (ht : Parse.isSimpleTarget false e = true) (h : Derives (.chain true e) ws) :
    Derives (.expr Strength.unary (.update loc op true e)) (symbol op.text :: ws)
  | unary {loc : Span} {op : UnaryOp} {s : Nat} {e : Expr} {ws : List Written}
    (hs : Strength.unary ≤ s) (h : Derives (.expr s e) ws) :
    Derives (.expr Strength.unary (.unary loc op e)) (symbol op.text :: ws)
  | operation {op : InfixOp} {loc : Span} {s s' : Nat} {l r : Expr} {ws ws' : List Written}
    (hs : op.leftStrength ≤ s) (hl : Derives (.expr s l) ws) (hs' : op.rightStrength ≤ s')
    (hr : Derives (.expr s' r) ws') :
    Derives (.expr op.strength (op.apply loc l r)) (ws ++ symbol op.text :: ws')
  /-- A chain of `&&` or of `||` that is grouped to the right. -/
  | grouped {op : LogicalOp} {loc loc' : Span} {s : Nat} {l a b : Expr} {ws ws' : List Written}
    (hop : op ≠ .nullish) (hs : (InfixOp.logical op).strength ≤ s) (hl : Derives (.expr s l) ws)
    (hr : Derives (.expr (InfixOp.logical op).strength (.logical loc' op a b)) ws') :
    Derives (.expr (InfixOp.logical op).strength (.logical loc op l (.logical loc' op a b)))
      (ws ++ symbol op.text :: ws')
  | conditional {loc : Span} {s s' s'' : Nat} {t c a : Expr} {ws ws' ws'' : List Written}
    (hs : Strength.conditional < s) (ht : Derives (.expr s t) ws) (hs' : Strength.assign ≤ s')
    (hc : Derives (.expr s' c) ws') (hs'' : Strength.assign ≤ s'')
    (ha : Derives (.expr s'' a) ws'') :
    Derives (.expr Strength.conditional (.conditional loc t c a))
      (ws ++ punct .question rfl :: ws' ++ punct .colon rfl :: ws'')
  | assign {loc : Span} {op : AssignOp} {s : Nat} {e v : Expr} {ws ws' : List Written}
    (hop : op.isSpelled = true) (ht : Parse.isSimpleTarget false e = true)
    (he : Derives (.chain true e) ws) (hs : Strength.assign ≤ s) (hv : Derives (.expr s v) ws') :
    Derives (.expr Strength.assign (.assign loc op (.expr e) v)) (ws ++ symbol op.text :: ws')
  | none : Derives (.items []) []
  | last {s : Nat} {e : Expr} {ws : List Written} (hs : Strength.assign ≤ s)
    (h : Derives (.expr s e) ws) : Derives (.items [e]) ws
  | more {s : Nat} {e : Expr} {es : List Expr} {ws ws' : List Written} (hs : Strength.assign ≤ s)
    (h : Derives (.expr s e) ws) (hne : es ≠ []) (hes : Derives (.items es) ws') :
    Derives (.items (e :: es)) (ws ++ punct .comma rfl :: ws')

/-! ## Neighbouring tokens -/

def Lexeme.isOperator : Lexeme → Bool
  | .punct p => p ∉ [.dot, .dotDotDot, .arrow]
  | .word _ => true
  | _ => false

namespace Written

variable {text : String} {x : Float} {cs : List Char}

theorem not_isDigits_of_name {w : Written} (h : isIdentifierName text = true)
    (htext : w.text = text.toList) : ¬w.IsDigits := by
  intro hdigits
  obtain ⟨c, cs, hcs, -⟩ := w.exists_text
  have hc := (Scanning.isIdStart_of_isIdentifierName h (htext.symm.trans hcs)).1
  have hd := Scanning.not_isIdStart_of_isDigit (hdigits c (by rw [hcs]; exact List.mem_cons_self))
  rw [hc] at hd
  cases hd

theorem ofName_cases (text : String) : Literal.ofName text = .identifier text ∨
    ∃ w : Word, w.text = text ∧ Literal.ofName text = .word w := by
  unfold Literal.ofName
  split
  · next w hw => exact .inr ⟨w, by simpa using List.find?_some hw, rfl⟩
  · exact .inl rfl

theorem lexeme_name_ne (h : isIdentifierName text = true) :
    (name text h).lexeme ≠ .punct .arrow := by
  show Literal.ofName text ≠ _
  rcases ofName_cases text with hname | ⟨w, -, hname⟩ <;> rw [hname] <;> exact nofun

theorem ends_name (h : isIdentifierName text = true) : (name text h).Ends := by
  have hlexeme : (name text h).lexeme = Literal.ofName text := rfl
  unfold Ends
  rcases ofName_cases text with hname | ⟨w, -, hname⟩ <;> rw [hlexeme, hname] <;> trivial

variable {op : Written}

theorem meets_starts_of_isOperator (h : op.lexeme.isOperator = true) {b : Written}
    (hb : b.lexeme.starts = true) : op.Meets b := by
  obtain ⟨l, t, hspells⟩ := op
  cases hspells with
  | @punct p hp =>
    refine meets_of_starts rfl ?_ hb
    rintro rfl
    cases h
  | word w =>
    have hnot := not_isDigits_of_name (w := ⟨.word w, _, .word w⟩)
      (Scanning.isIdentifierName_text w) rfl
    exact meets_of_ends trivial fun hdigits => absurd hdigits hnot
  | _ => cases h

theorem meets_isOperator {a : Written} (ha : a.Ends) (h : op.lexeme.isOperator = true) :
    a.Meets op := by
  refine meets_of_ends ha fun _ => ?_
  obtain ⟨l, t, hspells⟩ := op
  cases hspells with
  | @punct p hp =>
    have hall : ∀ p ∈ Punct.all, (Lexeme.punct p).isOperator = true →
        p.text.toList.head? ≠ some '.' := by
      decide
    exact hall p (Scanning.mem_all p) h
  | word w =>
    have hall : ∀ w ∈ Word.all, w.text.toList.head? ≠ some '.' := by
      decide
    exact hall w (by cases w <;> decide)
  | _ => cases h

theorem arrowless_of_isOperator (h : op.lexeme.isOperator = true) : op.lexeme ≠ .punct .arrow := by
  intro harrow
  rw [harrow] at h
  cases h

/-- Tokens that meet, start as an expression does and end as an operand does. -/
structure Tidy (ws : List Written) : Prop where
  meets : ws.IsChain Meets
  first : ∀ w ∈ ws.head?, w.lexeme.starts = true
  last : ∀ w ∈ ws.getLast?, w.Ends
  arrowless : ∀ w ∈ ws, w.lexeme ≠ .punct .arrow

namespace Tidy

variable {ws ws' : List Written}

theorem nil : Tidy [] := ⟨.nil, by simp, by simp, by simp⟩

theorem single {w : Written} (hstarts : w.lexeme.starts = true) (hends : w.Ends) : Tidy [w] := by
  refine ⟨.singleton w, ?_, ?_, ?_⟩
  · rintro _ ⟨⟩
    exact hstarts
  · rintro _ ⟨⟩
    exact hends
  · intro v hv harrow
    rw [List.mem_singleton.mp hv] at harrow
    rw [harrow] at hstarts
    cases hstarts

theorem append_operator (h : Tidy ws) (hop : op.lexeme.isOperator = true)
    (hfirst : ws = [] → op.lexeme.starts = true) (h' : Tidy ws') (hends : ws' = [] → op.Ends) :
    Tidy (ws ++ op :: ws') := by
  refine ⟨List.isChain_append.mpr ⟨h.meets, List.isChain_cons.mpr ⟨?_, h'.meets⟩, ?_⟩, ?_, ?_, ?_⟩
  · exact fun b hb => meets_starts_of_isOperator hop (h'.first b hb)
  · rintro a ha _ ⟨⟩
    exact meets_isOperator (h.last a ha) hop
  · cases ws with
    | nil =>
      rintro _ ⟨⟩
      exact hfirst rfl
    | cons w ws => exact h.first
  · rw [List.getLast?_append, List.getLast?_cons]
    cases ws' with
    | nil =>
      rintro _ ⟨⟩
      exact hends rfl
    | cons w ws' => exact h'.last
  · intro w hw
    rcases List.mem_append.mp hw with hw | hw
    · exact h.arrowless w hw
    rcases List.mem_cons.mp hw with rfl | hw
    · exact arrowless_of_isOperator hop
    · exact h'.arrowless w hw

theorem append_dot (hchain : ws.IsChain Meets) (hne : ws ≠ [])
    (hfirst : ∀ w ∈ ws.head?, w.lexeme.starts = true) (harrow : ∀ w ∈ ws, w.lexeme ≠ .punct .arrow)
    (hmeets : ∀ a ∈ ws.getLast?, a.Meets (punct .dot rfl)) {text : String}
    (hname : isIdentifierName text = true) : Tidy (ws ++ [punct .dot rfl, name text hname]) := by
  have hlexeme := lexeme_name_ne hname
  refine ⟨List.isChain_append.mpr ⟨hchain, List.isChain_pair.mpr ?_, ?_⟩, ?_, ?_, ?_⟩
  · exact meets_of_name rfl hname
  · rintro a ha _ ⟨⟩
    exact hmeets a ha
  · rw [List.head?_append_of_ne_nil _ hne]
    exact hfirst
  · rw [List.getLast?_append]
    rintro _ ⟨⟩
    exact ends_name hname
  · intro w hw
    rcases List.mem_append.mp hw with hw | hw
    · exact harrow w hw
    rcases List.mem_cons.mp hw with rfl | hw
    · exact nofun
    · rw [List.mem_singleton.mp hw]
      exact hlexeme

end Tidy

/-- Tidy tokens, at least one. -/
structure Solid (ws : List Written) : Prop extends Tidy ws where
  ne_nil : ws ≠ []

namespace Solid

variable {ws ws' : List Written}

theorem single {w : Written} (hstarts : w.lexeme.starts = true) (hends : w.Ends) : Solid [w] :=
  ⟨.single hstarts hends, List.cons_ne_nil _ _⟩

theorem exists_first (h : Solid ws) : ∃ w ts, ws = w :: ts ∧ w.lexeme.starts = true := by
  obtain ⟨w, ts, rfl⟩ := List.exists_cons_of_ne_nil h.ne_nil
  exact ⟨w, ts, rfl, h.first w rfl⟩

theorem between (h : Solid ws) (hop : op.lexeme.isOperator = true) (h' : Solid ws') :
    Solid (ws ++ op :: ws') :=
  ⟨h.append_operator hop (fun hnil => absurd hnil h.ne_nil) h'.toTidy
    fun hnil => absurd hnil h'.ne_nil, List.append_ne_nil_of_left_ne_nil h.ne_nil _⟩

theorem before (hop : op.lexeme.isOperator = true ∧ op.lexeme.starts = true) (h : Solid ws) :
    Solid (op :: ws) :=
  ⟨Tidy.nil.append_operator hop.1 (fun _ => hop.2) h.toTidy fun hnil => absurd hnil h.ne_nil,
    List.cons_ne_nil _ _⟩

theorem closed (h : Solid ws) (hop : op.lexeme.isOperator = true) (hends : op.Ends)
    (h' : Tidy ws') : Solid (ws ++ op :: ws') :=
  ⟨h.append_operator hop (fun hnil => absurd hnil h.ne_nil) h' fun _ => hends,
    List.append_ne_nil_of_left_ne_nil h.ne_nil _⟩

/-- Brackets around tokens, after an operand. -/
theorem brackets {op' : Written} (h : Solid ws) (hop : op.lexeme.isOperator = true ∧ op.Ends)
    (h' : Tidy ws') (hop' : op'.lexeme.isOperator = true ∧ op'.Ends) :
    Solid (ws ++ op :: ws' ++ [op']) :=
  (h.closed hop.1 hop.2 h').closed hop'.1 hop'.2 .nil

end Solid

/-! ### Numbers -/

theorem isWordChar_last_append {ds : List Char} (hne : ds ≠ []) (hds : ∀ c ∈ ds, isIdPart c = true)
    (cs : List Char) : Rendered.isWordChar ((cs ++ ds).getLastD ' ') = true := by
  apply isWordChar_of_isIdPart
  apply hds
  rw [List.getLastD_eq_getLast?, List.getLast?_append_of_ne_nil _ hne,
    List.getLast?_eq_getLast_of_ne_nil hne]
  exact List.getLast_mem hne

theorem isWordChar_last_of_isNumeral (h : IsNumeral x cs) :
    Rendered.isWordChar (cs.getLastD ' ') = true := by
  cases h with
  | @hexadecimal n _ _ =>
    refine isWordChar_last_append Nat.toDigits_ne_nil (fun c hc => ?_) ['0', 'x']
    exact isIdPart_of_digitValue? (Literal.isSome_digitValue?_of_mem hc)
  | @decimal t ht hpoint _ =>
    unfold DecimalText.chars DecimalText.fractionChars DecimalText.exponentChars
    rcases hexponent : t.exponent with _ | ⟨sign, es⟩
    · rcases hfraction : t.fraction with _ | fs
      · have hne : t.whole ≠ [] := by
          rcases ht.digits with hne | ⟨d, ds, hsome⟩
          · exact hne
          · rw [hfraction] at hsome
            cases hsome
        simpa using isWordChar_last_append hne
          (fun c hc => isIdPart_of_isDigit (ht.whole c hc)) []
      · have hne : fs ≠ [] := by
          rintro rfl
          exact hpoint hfraction
        simpa using isWordChar_last_append hne
          (fun c hc => isIdPart_of_isDigit (ht.fraction fs hfraction c hc)) (t.whole ++ ['.'])
    · obtain ⟨-, hne, hes⟩ := ht.exponent _ hexponent
      have h := isWordChar_last_append hne (fun c hc => isIdPart_of_isDigit (hes c hc))
        (t.whole ++ (t.fractionChars ++ 'e' :: sign))
      simpa [DecimalText.fractionChars] using h

theorem meets_dot_of_pointed (h : IsNumeral x cs) (hdigits : ∀ c ∈ cs, c.isDigit = true) :
    (number (.pointed h hdigits)).Meets (punct .dot rfl) := by
  intro r
  have hlast : (number (.pointed h hdigits)).last = '.' := by
    rw [last, number, List.getLastD_eq_getLast?, List.getLast?_append_of_ne_nil _ (by simp)]
    rfl
  rw [hlast]
  refine ⟨?_, fun hall => ?_⟩
  · rintro _ ⟨⟩
    decide
  · have hpoint : '.' ∈ (number (.pointed h hdigits)).text := by simp [number]
    cases hall '.' hpoint

/-! ### Operators -/

theorem symbol_unaryOp (op : UnaryOp) : (symbol op.text).text = op.text.toList ∧
    Parse.unaryOp? (symbol op.text).lexeme.kind = some op ∧
    (symbol op.text).lexeme.isOperator = true ∧ (symbol op.text).lexeme.starts = true := by
  cases op <;> decide

theorem symbol_updateOp (op : UpdateOp) : (symbol op.text).text = op.text.toList ∧
    Parse.updateOp? (symbol op.text).lexeme.kind = some op ∧
    (symbol op.text).lexeme.isOperator = true ∧ (symbol op.text).lexeme.starts = true := by
  cases op <;> decide

theorem ends_updateOp (op : UpdateOp) : (symbol op.text).Ends := by
  have hends : ∀ p : Punct, p.isSimple = true → p.isClosed = true → (symbol p.text).Ends := by
    intro p hp h
    rw [symbol_punct hp]
    exact h
  cases op
  · exact hends .plusPlus rfl rfl
  · exact hends .minusMinus rfl rfl

theorem symbol_infixOp (op : InfixOp) : (symbol op.text).text = op.text.toList ∧
    InfixOp.ofKind? false (symbol op.text).lexeme.kind = some op ∧
    (symbol op.text).lexeme.isOperator = true := by
  rcases op with op | op <;> cases op <;> decide

theorem symbol_assignOp {op : AssignOp} (h : op.isSpelled = true) :
    (symbol op.text).text = op.text.toList ∧
    Parse.assignOp? (symbol op.text).lexeme.kind = some op ∧
    (symbol op.text).lexeme.isOperator = true := by
  rcases op with _ | op | op
  · decide
  · cases op <;> first | decide | cases h
  · cases op <;> decide

end Written

/-! ### Phrases -/

open Written in
def Phrase.Arranged : Phrase → List Written → Prop
  | .items [], ws => ws = []
  | _, ws => Solid ws

open Written in
theorem Phrase.Arranged.tidy {es : List Expr} (h : (Phrase.items es).Arranged ws) : Tidy ws := by
  cases es with
  | nil => exact h ▸ .nil
  | cons e es => exact Solid.toTidy h

open Written in
theorem Derives.arranged {ph : Phrase} (h : Derives ph ws) : ph.Arranged ws := by
  induction h with
  | ident h hword =>
    refine .single ?_ (ends_name h)
    show (Literal.ofName _).starts = true
    rw [Scanning.ofName_of_ofText? hword]
    rfl
  | number h => exact .single rfl (isWordChar_last_of_isNumeral h)
  | string h | this => exact .single rfl trivial
  | parens he h ih =>
    have hopen : Solid (punct .leftParen rfl :: _) :=
      ⟨Tidy.nil.append_operator rfl (fun _ => rfl) ih.tidy fun _ => rfl, List.cons_ne_nil _ _⟩
    exact hopen.closed rfl rfl .nil
  | head h ih => exact ih
  | new h hargs ih ihargs =>
    exact (Solid.before ⟨rfl, rfl⟩ ih).brackets ⟨rfl, rfl⟩ ihargs.tidy ⟨rfl, rfl⟩
  | dot h hdigits hname ih =>
    refine ⟨.append_dot ih.meets ih.ne_nil ih.first ih.arrowless (fun a ha => ?_) hname,
      List.append_ne_nil_of_left_ne_nil ih.ne_nil _⟩
    exact meets_of_ends (ih.last a ha) fun hd => absurd hd (hdigits a ha)
  | @dotDigits calls loc loc' x id cs h hdigits hname =>
    have hchain : [Written.number (.pointed h hdigits)].IsChain Meets := .singleton _
    refine ⟨.append_dot hchain (List.cons_ne_nil _ _) ?_ ?_ ?_ hname, List.cons_ne_nil _ _⟩
    · rintro _ ⟨⟩
      rfl
    · intro w hw
      rw [List.mem_singleton.mp hw]
      exact nofun
    · rintro _ ⟨⟩
      exact meets_dot_of_pointed h hdigits
  | index h hi hes ih ihes => exact ih.brackets ⟨rfl, rfl⟩ ihes.tidy ⟨rfl, rfl⟩
  | call h hargs ih ihargs => exact ih.brackets ⟨rfl, rfl⟩ ihargs.tidy ⟨rfl, rfl⟩
  | chain h ih => exact ih
  | newAlone h ih => exact .before ⟨rfl, rfl⟩ ih
  | @updateAfter loc op e ws ht h ih =>
    exact ih.closed (symbol_updateOp op).2.2.1 (ends_updateOp op) .nil
  | updateBefore ht h ih => exact .before (symbol_updateOp _).2.2 ih
  | unary hs h ih => exact .before (symbol_unaryOp _).2.2 ih
  | operation hs hl hs' hr ihl ihr => exact ihl.between (symbol_infixOp _).2.2 ihr
  | @grouped op loc loc' s l a b ws ws' hop hs hl hr ihl ihr =>
    exact ihl.between (symbol_infixOp (.logical op)).2.2 ihr
  | conditional hs ht hs' hc hs'' ha iht ihc iha => exact (iht.between rfl ihc).between rfl iha
  | assign hop ht he hs hv ihe ihv => exact ihe.between (symbol_assignOp hop).2.2 ihv
  | none => rfl
  | last hs h ih => exact ih
  | @more s e es ws ws' hs h hne hes ih ihes => exact ih.closed rfl rfl ihes.tidy

end Laconic
