import Laconic.Output.Render
import Laconic.Proofs.Token.Legible

/-!
# Tokens next to each other

The tokens of an expression are written one after the other, with a blank only between
two that would run together.  `Written.Meets` says that two tokens may stand next to each
other: the first one is parted from whatever text begins with the second one.  If all
neighbours meet, the text is legible as the lexemes of the tokens.

Most pairs of tokens meet, since an operator is followed by something that an operand
starts with, and no operator goes on with such a character except after a blank.
-/

namespace Laconic

open Rendered

/-- A lexeme with a spelling. -/
structure Written where
  lexeme : Lexeme
  text : List Char
  spells : Spells lexeme text

namespace Written

variable {cs : List Char}

/-! ## Kinds of tokens -/

def word (w : Word) : Written := ⟨.word w, w.text.toList, .word w⟩

def punct (p : Punct) (h : p.isSimple = true) : Written := ⟨.punct p, p.text.toList, .punct h⟩

/-- The token with a given fixed spelling; a semicolon if there is none. -/
def symbol (text : String) : Written :=
  match Punct.ofText? text, Word.ofText? text with
  | some p, _ => if h : p.isSimple = true then punct p h else punct .semicolon rfl
  | none, some w => word w
  | none, none => punct .semicolon rfl

theorem spells_ofName {name : String} (h : isIdentifierName name = true) :
    Spells (Literal.ofName name) name.toList := by
  unfold Literal.ofName
  split
  · next w hw =>
    have htext : w.text = name := by
      simpa using List.find?_some hw
    rw [← htext]
    exact .word w
  · next hw => exact .identifier h hw

def name (name : String) (h : isIdentifierName name = true) : Written :=
  ⟨Literal.ofName name, name.toList, spells_ofName h⟩

def number {x : Float} {cs : List Char} (h : Literal.NumberText x cs) : Written :=
  ⟨.number x, cs, .number h⟩

def string (s : String) : Written := ⟨.string s none, (Spelling.quote {} s).toList, .string s⟩

theorem text_number {x : Float} (h : Literal.NumberText x cs) : (number h).text = cs := by
  simp only [number]

theorem text_string (s : String) : (string s).text = (Spelling.quote {} s).toList := by
  simp only [string]

theorem symbol_punct {p : Punct} (h : p.isSimple = true) : symbol p.text = punct p h := by
  unfold symbol
  rw [Punct.ofText?_text]
  simp only [h, dif_pos]

/-! ## Texts -/

def last (w : Written) : Char := w.text.getLastD ' '

/-- A blank before a token if it would run together with a character. -/
def gap (before : Char) (w : Written) : List Char :=
  if w.text.head?.any (runTogether before) then [' '] else []

theorem exists_text (w : Written) : ∃ c cs, w.text = c :: cs ∧ isWhiteSpace c = false
    ∧ c ≠ '#' := by
  obtain ⟨c, cs, h, hblank, hhash, -⟩ := Scanning.exists_head_of_spells w.spells
  exact ⟨c, cs, h, hblank, hhash⟩

theorem gap_of_text {w : Written} {c : Char} (h : w.text = c :: cs) (before : Char) :
    gap before w = if runTogether before c then [' '] else [] := by
  unfold gap
  rw [h]
  rfl

theorem gap_cases (before : Char) (w : Written) : gap before w = [] ∨ gap before w = [' '] := by
  unfold gap
  split
  · exact .inr rfl
  · exact .inl rfl

/-- A token may stand before another one: it is parted from each text that starts with it. -/
def Meets (a b : Written) : Prop :=
  ∀ r, PartedFrom a.lexeme a.text (gap a.last b ++ (b.text ++ r))

end Written

/-- Tokens one after the other, after a character. -/
def joined : Char → List Written → List Char
  | _, [] => []
  | before, w :: ws => Written.gap before w ++ (w.text ++ joined w.last ws)

theorem partedFrom_nil (l : Lexeme) (t : List Char) : PartedFrom l t [] := by
  unfold PartedFrom
  split
  · exact nofun
  · exact nofun
  · exact ⟨nofun, fun _ => nofun⟩
  · exact .inl nofun
  · trivial

theorem legible_joined {ws : List Written} (h : ws.IsChain Written.Meets) (before : Char) :
    Legible (joined before ws) (ws.map Written.lexeme) := by
  induction ws generalizing before with
  | nil => exact .nil
  | cons w ws ih =>
    refine .cons (w.gap_cases before) w.spells ?_ (ih h.tail w.last)
    cases ws with
    | nil => exact partedFrom_nil _ _
    | cons b ws => exact (List.isChain_cons_cons.mp h).1 _

/-! ## Which tokens meet -/

/-- Whether no punctuator is longer and begins with a given one. -/
def Punct.isClosed (p : Punct) : Bool :=
  p ∈ [.leftParen, .rightParen, .leftBracket, .rightBracket, .leftBrace, .rightBrace, .comma,
    .semicolon, .colon, .tilde, .plusPlus, .minusMinus]

def Lexeme.starts : Lexeme → Bool
  | .identifier _ | .number _ | .string .. => true
  | .word w => w ∈ [.this, .new, .typeof, .void, .delete]
  | .punct p => p ∈ [.leftParen, .plus, .minus, .bang, .tilde, .plusPlus, .minusMinus]
  | _ => false

namespace Written

variable {a b : Written} {c : Char} {p : Punct}

theorem isWordChar_of_isIdPart (h : isIdPart c = true) : isWordChar c = true := by
  have hascii : ∀ n < 128, isIdPart (Char.ofNat n) = true →
      isWordChar (Char.ofNat n) = true := by
    decide +kernel
  by_cases hc : c.toNat < 128
  · have hword := hascii c.toNat hc
    rw [Char.ofNat_toNat] at hword
    exact hword h
  · simp [isWordChar, Spelling.isAscii, h, hc]

theorem endsWord_of_last (h : isWordChar a.last = true) (b : Written) (r : List Char) :
    EndsWord (gap a.last b ++ (b.text ++ r)) := by
  obtain ⟨c, cs, htext, -⟩ := b.exists_text
  rw [gap_of_text htext, htext]
  by_cases htogether : runTogether a.last c = true
  · rw [if_pos htogether]
    rintro d hd
    cases hd
    decide
  · rw [if_neg htogether]
    have hc : isWordChar c = false := by
      by_contra hword
      rw [Bool.not_eq_false] at hword
      exact htogether (by simp [runTogether, h, hword])
    rintro d hd
    cases hd
    constructor
    · by_contra hpart
      rw [Bool.not_eq_false] at hpart
      rw [isWordChar_of_isIdPart hpart] at hc
      cases hc
    · rintro rfl
      cases hc

theorem goesOn_cases (h : p.goesOn c = true) :
    c ∈ ['=', '>', '<', '&', '|', '?', '*'] ∨ (c = '+' ∧ p = .plus) ∨ (c = '-' ∧ p = .minus) ∨
      (c = '.' ∧ (p = .question ∨ p = .dot)) := by
  have hall : ∀ p ∈ Punct.all, ∀ q ∈ Punct.all, ∀ c ∈ q.text.toList,
      (p.text.toList ++ [c]).isPrefixOf q.text.toList = true →
      c ∈ ['=', '>', '<', '&', '|', '?', '*'] ∨ (c = '+' ∧ p = .plus) ∨ (c = '-' ∧ p = .minus) ∨
        (c = '.' ∧ (p = .question ∨ p = .dot)) := by
    decide +kernel
  obtain ⟨q, hq, hprefix⟩ := List.any_eq_true.mp h
  refine hall p (Scanning.mem_all p) q hq c ?_ hprefix
  rw [List.isPrefixOf_iff_prefix] at hprefix
  exact hprefix.subset (by simp)

theorem clashes_of_isClosed (h : p.isClosed = true) (c : Char) : p.clashes c = false := by
  have hall : ∀ p ∈ Punct.all, p.isClosed = true → ∀ q ∈ Punct.all, ∀ c ∈ q.text.toList,
      (p.text.toList ++ [c]).isPrefixOf q.text.toList = false := by
    decide +kernel
  have hgoes : p.goesOn c = false := by
    by_contra hgoes
    rw [Bool.not_eq_false] at hgoes
    obtain ⟨q, hq, hprefix⟩ := List.any_eq_true.mp hgoes
    have hmem : c ∈ q.text.toList := by
      rw [List.isPrefixOf_iff_prefix] at hprefix
      exact hprefix.subset (by simp)
    rw [hall p (Scanning.mem_all p) h q hq c hmem] at hprefix
    cases hprefix
  have hslash : p ≠ .slash := by
    rintro rfl
    cases h
  have hdot : p ≠ .dot := by
    rintro rfl
    cases h
  simp [Punct.clashes, hgoes, hslash, hdot]

/-- A token that may stand before any other one, a point after digits apart. -/
def Ends (w : Written) : Prop :=
  match w.lexeme with
  | .identifier _ | .word _ | .string .. => True
  | .number _ => isWordChar w.last = true
  | .punct p => p.isClosed = true
  | _ => False

def IsDigits (w : Written) : Prop := ∀ c ∈ w.text, c.isDigit = true

theorem isWordChar_last_of_name {name : String} (h : isIdentifierName name = true) :
    isWordChar (name.toList.getLastD ' ') = true := by
  cases ht : name.toList with
  | nil =>
    unfold isIdentifierName at h
    rw [ht] at h
    cases h
  | cons c w =>
    obtain ⟨hc, hw⟩ := Scanning.isIdStart_of_isIdentifierName h ht
    apply isWordChar_of_isIdPart
    have hmem : (c :: w).getLastD ' ' ∈ c :: w := by
      rw [List.getLastD_cons]
      exact List.getLastD_mem_cons ..
    rcases List.mem_cons.mp hmem with heq | hmem
    · rw [heq]
      exact isIdPart_of_isIdStart hc
    · exact hw _ hmem

theorem meets_of_ends (ha : a.Ends) (hdot : a.IsDigits → b.text.head? ≠ some '.') : a.Meets b := by
  intro r
  have hlast : ∀ {name : String}, isIdentifierName name = true → a.text = name.toList →
      EndsWord (gap a.last b ++ (b.text ++ r)) := by
    intro name hname htext
    apply endsWord_of_last
    rw [last, htext]
    exact isWordChar_last_of_name hname
  obtain ⟨l, t, hspells⟩ := a
  cases hspells with
  | identifier hname _ => exact hlast hname rfl
  | word w => exact hlast (Scanning.isIdentifierName_text w) rfl
  | string s => trivial
  | punct hp => exact .inl fun c _ => clashes_of_isClosed ha c
  | number hx =>
    refine ⟨endsWord_of_last ha b r, fun hdigits => ?_⟩
    have hne := hdot hdigits
    obtain ⟨c, cs, htext, -⟩ := b.exists_text
    rw [gap_of_text htext, htext]
    rw [htext] at hne
    split
    · exact nofun
    · exact hne

theorem clashes_eq_false (hp : p ≠ .dot) (hc : c ∉ ['=', '>', '<', '&', '|', '?', '*', '/'])
    (hplus : c = '+' → p ≠ .plus) (hminus : c = '-' → p ≠ .minus)
    (hpoint : c = '.' → p ≠ .question) :
    p.clashes c = false := by
  have hgoes : p.goesOn c = false := by
    by_contra hgoes
    rw [Bool.not_eq_false] at hgoes
    rcases goesOn_cases hgoes with hmem | ⟨rfl, hq⟩ | ⟨rfl, hq⟩ | ⟨rfl, hq | hq⟩
    · exact hc (List.mem_append_left ['/'] hmem)
    · exact hplus rfl hq
    · exact hminus rfl hq
    · exact hpoint rfl hq
    · exact hp hq
  simp only [List.mem_cons, List.not_mem_nil, or_false, not_or] at hc
  simp [Punct.clashes, hgoes, hp, hc]

theorem clashes_of_isIdPart (hp : p ≠ .dot) (h : isIdPart c = true) : p.clashes c = false := by
  have hnone : ∀ d ∈ ['=', '>', '<', '&', '|', '?', '*', '/', '+', '-', '.'],
      isIdPart d = false := by
    decide
  have hne : ∀ d ∈ ['=', '>', '<', '&', '|', '?', '*', '/', '+', '-', '.'], c ≠ d := by
    rintro d hd rfl
    rw [hnone c hd] at h
    cases h
  refine clashes_eq_false hp ?_ ?_ ?_ ?_
  · exact fun hmem => hne c (List.mem_append_left ['+', '-', '.'] hmem) rfl
  · exact fun hc => absurd hc (hne '+' (by decide))
  · exact fun hc => absurd hc (hne '-' (by decide))
  · exact fun hc => absurd hc (hne '.' (by decide))

theorem head_of_starts {q : Punct} (hq : (Lexeme.punct q).starts = true)
    (hc : c ∈ q.text.toList.head?) : c ∈ ['(', '+', '-', '!', '~'] := by
  have hall : ∀ q ∈ Punct.all, (Lexeme.punct q).starts = true → ∀ c ∈ q.text.toList.head?,
      c ∈ ['(', '+', '-', '!', '~'] := by
    decide
  exact hall q (Scanning.mem_all q) hq c hc

theorem text_of_lexeme (ha : a.lexeme = .punct p) : a.text = p.text.toList := by
  obtain ⟨l, t, hspells⟩ := a
  cases hspells with
  | punct => cases ha; rfl
  | _ => cases ha

theorem head_cases_of_starts (hb : b.lexeme.starts = true) {cs : List Char}
    (htext : b.text = c :: cs) : isIdPart c = true ∨
      (c = '.' ∧ ∃ d cs', cs = d :: cs' ∧ d.isDigit = true) ∨
      c ∈ ['"', '\'', '(', '+', '-', '!', '~'] := by
  obtain ⟨l, t, hspells⟩ := b
  change t = c :: cs at htext
  cases hspells with
  | identifier hname _ =>
    exact .inl (isIdPart_of_isIdStart (Scanning.isIdStart_of_isIdentifierName hname htext).1)
  | word w =>
    have hname := Scanning.isIdentifierName_text w
    exact .inl (isIdPart_of_isIdStart (Scanning.isIdStart_of_isIdentifierName hname htext).1)
  | number hx =>
    obtain ⟨c', cs', heq, hhead⟩ := Literal.exists_head_of_numberText hx
    rw [heq] at htext
    obtain ⟨rfl, rfl⟩ := List.cons.inj htext
    rcases hhead with hd | hpoint
    · exact .inl (isIdPart_of_isDigit hd)
    · exact .inr (.inl hpoint)
  | string s =>
    obtain ⟨q, cs', heq, hq, -⟩ := Literal.toList_quote {} s
    rw [heq] at htext
    obtain ⟨rfl, rfl⟩ := List.cons.inj htext
    refine .inr (.inr ?_)
    rcases hq with rfl | rfl <;> decide
  | @punct q hq =>
    have hmem := head_of_starts hb (c := c) (by rw [htext]; rfl)
    exact .inr (.inr (List.mem_append_right ['"', '\''] hmem))

theorem meets_of_starts (ha : a.lexeme = .punct p) (hp : p ≠ .dot) (hb : b.lexeme.starts = true) :
    a.Meets b := by
  intro r
  rw [ha]
  obtain ⟨c, cs, htext, -⟩ := b.exists_text
  rw [gap_of_text htext, htext]
  by_cases htogether : runTogether a.last c = true
  · rw [if_pos htogether]
    refine .inl fun d hd => ?_
    cases hd
    exact clashes_eq_false hp (by decide) nofun nofun nofun
  rw [if_neg htogether]
  have hlast : a.last = p.text.toList.getLastD ' ' := by rw [last, text_of_lexeme ha]
  have hplus : c = '+' → p ≠ .plus := by
    rintro rfl rfl
    rw [hlast] at htogether
    exact htogether (by decide)
  have hminus : c = '-' → p ≠ .minus := by
    rintro rfl rfl
    rw [hlast] at htogether
    exact htogether (by decide)
  rcases head_cases_of_starts hb htext with hc | ⟨rfl, d, cs', rfl, hd⟩ | hc
  · refine .inl fun d hd => ?_
    cases hd
    exact clashes_of_isIdPart hp hc
  · by_cases hquestion : p = .question
    · exact .inr ⟨hquestion, d, cs' ++ r, rfl, hd⟩
    · refine .inl fun d h => ?_
      cases h
      exact clashes_eq_false hp (by decide) nofun nofun fun _ => hquestion
  · have hnot : ∀ c ∈ ['"', '\'', '(', '+', '-', '!', '~'],
        c ∉ ['=', '>', '<', '&', '|', '?', '*', '/'] ∧ c ≠ '.' := by
      decide
    refine .inl fun d hd => ?_
    cases hd
    exact clashes_eq_false hp (hnot c hc).1 hplus hminus fun hpoint => absurd hpoint (hnot c hc).2

theorem meets_of_name (ha : a.lexeme = .punct .dot) {text : String}
    (h : isIdentifierName text = true) : a.Meets (name text h) := by
  intro r
  rw [ha]
  obtain ⟨c, cs, htext, -⟩ := (name text h).exists_text
  rw [gap_of_text htext, htext]
  have hc := (Scanning.isIdStart_of_isIdentifierName h htext).1
  have hne : ∀ d, isIdStart d = false → c ≠ d := by
    rintro d hd rfl
    rw [hc] at hd
    cases hd
  have hgoes : Punct.dot.goesOn c = false := by
    by_contra hgoes
    rw [Bool.not_eq_false] at hgoes
    rcases goesOn_cases hgoes with hmem | ⟨-, hq⟩ | ⟨-, hq⟩ | ⟨hpoint, -⟩
    · have hnone : ∀ d ∈ ['=', '>', '<', '&', '|', '?', '*'], isIdStart d = false := by
        decide
      exact hne c (hnone c hmem) rfl
    · cases hq
    · cases hq
    · exact hne '.' (by decide) hpoint
  have hdigit : c.isDigit = false := by
    by_contra hd
    rw [Bool.not_eq_false] at hd
    exact hne c (Scanning.not_isIdStart_of_isDigit hd) rfl
  refine .inl fun d hd => ?_
  split at hd
  · cases hd
    decide
  · cases hd
    simp [Punct.clashes, hgoes, hdigit]

end Written

end Laconic
