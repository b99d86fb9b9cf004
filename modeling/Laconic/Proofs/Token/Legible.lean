import Laconic.Token.Scanner
import Laconic.Proofs.Token.Quote

/-!
# Scanning what is legible

A text is legible as a list of lexemes if it consists of their spellings, with at most
one blank before each, and no spelling runs on into the text after it.  The scanner
finds these lexemes one after the other.  There is one exception: where it guesses that
a slash starts a regular expression, it may take a division for one; reading the token
again mends that.
-/

namespace Laconic

/-! ## Spellings -/

/-- Whether a punctuator is scanned by its spelling alone. -/
def Punct.isSimple : Punct → Bool
  | .questionDot => false
  | _ => true

inductive Spells : Lexeme → List Char → Prop where
  | identifier {name : String} (h : isIdentifierName name = true)
    (hword : Word.ofText? name = none) : Spells (.identifier name) name.toList
  | word (w : Word) : Spells (.word w) w.text.toList
  | number {x : Float} {cs : List Char} (h : Literal.NumberText x cs) : Spells (.number x) cs
  | string (s : String) : Spells (.string s none) (Spelling.quote {} s).toList
  | punct {p : Punct} (h : p.isSimple = true) : Spells (.punct p) p.text.toList

/-- Whether a punctuator would go on with a character. -/
def Punct.goesOn (p : Punct) (c : Char) : Bool :=
  Punct.all.any fun q => (p.text.toList ++ [c]).isPrefixOf q.text.toList

/-- Whether a punctuator and a character after it would be something else together: a longer
punctuator, a comment or a number. -/
def Punct.clashes (p : Punct) (c : Char) : Bool :=
  p.goesOn c || (p == .slash && (c == '/' || c == '*')) || (p == .dot && c.isDigit)

/-- What a punctuator is parted from: a text that it does not clash with, or a number that
starts with a point after a question mark. -/
def Punct.PartedFrom (p : Punct) (r : List Char) : Prop :=
  (∀ c ∈ r.head?, p.clashes c = false) ∨
    (p = .question ∧ ∃ d r', r = '.' :: d :: r' ∧ d.isDigit = true)

/-- The spelling of a lexeme does not run on into the text after it. -/
def PartedFrom (l : Lexeme) (t r : List Char) : Prop :=
  match l with
  | .identifier _ | .word _ => EndsWord r
  | .number _ => EndsNumeral t r
  | .punct p => p.PartedFrom r
  | _ => True

/-- A text consists of the spellings of some lexemes. -/
inductive Legible : List Char → List Lexeme → Prop where
  | nil : Legible [] []
  | cons {gap t r : List Char} {l : Lexeme} {ls : List Lexeme} (hgap : gap = [] ∨ gap = [' '])
    (hspells : Spells l t) (hparted : PartedFrom l t r) (h : Legible r ls) :
    Legible (gap ++ (t ++ r)) (l :: ls)

/-! ## Names -/

namespace Literal

open Scan

variable {r w : List Char} {x : Float} {t : List Char} {c : Char}

theorem exists_head_of_isNumeral (h : IsNumeral x t) :
    ∃ c w, t = c :: w ∧
      (c.isDigit = true ∨ (c = '.' ∧ ∃ d w', w = d :: w' ∧ d.isDigit = true)) := by
  cases h with
  | hexadecimal _ _ => exact ⟨'0', _, rfl, .inl rfl⟩
  | @decimal t ht _ _ =>
    unfold DecimalText.chars
    cases hwhole : t.whole with
    | cons c w => exact ⟨c, _, rfl, .inl (ht.whole c (by simp [hwhole]))⟩
    | nil =>
      obtain hne | ⟨d, ds, hfraction⟩ := ht.digits
      · exact absurd hwhole hne
      · refine ⟨'.', d :: (ds ++ t.exponentChars), ?_, .inr ⟨rfl, d, _, rfl, ?_⟩⟩
        · simp [DecimalText.fractionChars, hfraction]
        · exact ht.fraction (d :: ds) hfraction d List.mem_cons_self

theorem exists_head_of_numberText (h : NumberText x t) :
    ∃ c w, t = c :: w ∧
      (c.isDigit = true ∨ (c = '.' ∧ ∃ d w', w = d :: w' ∧ d.isDigit = true)) := by
  cases h with
  | plain h => exact exists_head_of_isNumeral h
  | pointed h _ =>
    obtain ⟨c, w, rfl, hhead⟩ := exists_head_of_isNumeral h
    refine ⟨c, w ++ ['.'], rfl, ?_⟩
    rcases hhead with hd | ⟨rfl, d, w', rfl, hd⟩
    · exact .inl hd
    · exact .inr ⟨rfl, d, w' ++ ['.'], rfl, hd⟩

theorem runs_nameRest (hw : ∀ c ∈ w, isIdPart c = true) (hr : EndsWord r) (fuel : Nat)
    (hfuel : w.length < fuel) (name : List Char) (escaped : Bool) (pos : Position) :
    Runs (nameRest fuel name escaped) ⟨pos, w ++ r⟩ (w.reverse ++ name, escaped)
      ⟨pos.past w, r⟩ := by
  induction w generalizing fuel name pos with
  | nil =>
    obtain ⟨fuel, rfl⟩ : ∃ k, fuel = k + 1 := ⟨fuel - 1, by omega⟩
    cases r with
    | nil => rfl
    | cons c r =>
      obtain ⟨hpart, hslash⟩ := hr c rfl
      refine Runs.bind (runs_peek? _) (Runs.ite_neg ?_ (Runs.ite_neg ?_ rfl))
      · simp [hpart]
      · simpa using hslash
  | cons c w ih =>
    obtain ⟨fuel, rfl⟩ : ∃ k, fuel = k + 1 := ⟨fuel - 1, by omega⟩
    have hc : isIdPart c = true := hw c List.mem_cons_self
    have hrun := ih (fun c hc => hw c (List.mem_cons_of_mem _ hc)) fuel (by simpa using hfuel)
      (c :: name) (pos.pastChar c)
    rw [List.reverse_cons, List.append_assoc]
    exact Runs.bind (runs_peek? _) (Runs.ite_pos hc
      (Runs.bind (runs_advance (isLineEnd_of_isIdPart hc)) hrun))

theorem runs_name (hc : isIdStart c = true) (hw : ∀ c ∈ w, isIdPart c = true) (hr : EndsWord r)
    (start pos : Position) :
    Runs (name c start) ⟨pos, w ++ r⟩ (String.ofList (c :: w), false) ⟨pos.past w, r⟩ := by
  have hslash : (c == '\\') = false := by
    rw [beq_eq_false_iff_ne]
    rintro rfl
    cases hc
  have hrest := runs_nameRest hw hr ((w ++ r).length + 1) (by grind) [c] false pos
  refine Runs.ite_neg (by simp [hslash]) (Runs.bind (Runs.pure _ _) (Runs.ite_neg (by simp [hc])
    (Runs.bind (Runs.pure _ _) ?_)))
  rw [hslash]
  refine Runs.bind hrest ?_
  show Runs (Pure.pure (String.ofList (w.reverse ++ [c]).reverse, false)) _ _ _
  rw [List.reverse_append, List.reverse_reverse]
  rfl

def ofName (text : String) : Lexeme :=
  match Word.ofText? text with
  | some w => .word w
  | none => .identifier text

theorem runs_identifier (hc : isIdStart c = true) (hw : ∀ c ∈ w, isIdPart c = true)
    (hr : EndsWord r) (start pos : Position) :
    Runs (identifier c start) ⟨pos, w ++ r⟩ (ofName (String.ofList (c :: w))) ⟨pos.past w, r⟩ := by
  refine Runs.bind (runs_name hc hw hr start pos) (Runs.ite_neg (by decide) ?_)
  unfold ofName
  cases Word.ofText? (String.ofList (c :: w)) <;> rfl

end Literal

/-! ## Punctuators -/

namespace Scanning

variable {c : Char} {l : Lexeme} {p : Punct} {r t : List Char} {q : Punct} {name : String}
  {gap : List Char} {ls : List Lexeme}

theorem foldl_longest {ps : List Punct} {best : Option Punct}
    (hps : ∀ q ∈ ps, q.text.length < p.text.length ∨ q = p)
    (hbest : ∀ q ∈ best, q.text.length < p.text.length ∨ q = p) (hmem : p ∈ ps ∨ best = some p) :
    ps.foldl (fun best p =>
      match best with
      | some q => if q.text.length < p.text.length then some p else best
      | none => some p) best = some p := by
  induction ps generalizing best with
  | nil => simpa using hmem
  | cons q ps ih =>
    have hq := hps q List.mem_cons_self
    refine ih (fun x hx => hps x (List.mem_cons_of_mem _ hx)) ?_ ?_
    · cases best with
      | none => simpa using hq
      | some b =>
        dsimp only
        split
        · simpa using hq
        · exact hbest
    · rcases hmem with hmem | rfl
      · rcases List.mem_cons.mp hmem with rfl | hmem
        · cases best with
          | none => exact .inr rfl
          | some b =>
            dsimp only
            split
            · exact .inr rfl
            · next hlt => exact .inr (congrArg some ((hbest b rfl).resolve_left hlt))
        · exact .inl hmem
      · dsimp only
        split
        · next hlt => exact .inr (congrArg some (hq.resolve_left hlt.asymm))
        · exact .inr rfl

theorem mem_all (p : Punct) : p ∈ Punct.all := by
  cases p <;> decide

theorem text_injective (h : p.text = q.text) : p = q := by
  have hp := Punct.ofText?_text p
  rw [h, Punct.ofText?_text] at hp
  exact (Option.some.inj hp).symm

theorem goesOn_prefix (hq : q.text.toList <+: p.text.toList ++ r) (hne : q ≠ p)
    (hlen : p.text.length ≤ q.text.length) :
    ∃ c ∈ r.head?, p.text.toList ++ [c] <+: q.text.toList := by
  obtain ⟨u, hu⟩ : p.text.toList <+: q.text.toList :=
    List.prefix_of_prefix_length_le (List.prefix_append _ _) hq
      (by simpa only [String.length_toList] using hlen)
  cases u with
  | nil =>
    rw [List.append_nil] at hu
    exact absurd (text_injective (String.toList_inj.mp hu)).symm hne
  | cons c u =>
    obtain ⟨v, hv⟩ := hq
    rw [← hu, List.append_assoc, List.append_cancel_left_eq] at hv
    refine ⟨c, by rw [← hv]; rfl, u, ?_⟩
    rw [← hu, List.append_assoc]
    rfl

theorem longestPunct?_eq (hp : p.isSimple = true) (h : p.PartedFrom r) :
    longestPunct? (p.text.toList ++ r) = some p := by
  have hfits : punctFits p (p.text.toList ++ r) = true := by
    have hne : (p == .questionDot) = false := by
      rw [beq_eq_false_iff_ne]
      rintro rfl
      cases hp
    simp [punctFits, hne]
  refine foldl_longest ?_ (by simp) (.inl (List.mem_filter.mpr ⟨mem_all p, hfits⟩))
  intro q hq
  have hq := (List.mem_filter.mp hq).2
  simp only [punctFits, Bool.and_eq_true, List.isPrefixOf_iff_prefix] at hq
  obtain ⟨hpre, hdot⟩ := hq
  by_contra hlonger
  rw [not_or, Nat.not_lt] at hlonger
  obtain ⟨c, hc, hgoes⟩ := goesOn_prefix hpre hlonger.2 hlonger.1
  rw [← List.isPrefixOf_iff_prefix] at hgoes
  rcases h with h | ⟨rfl, d, r', rfl, hd⟩
  · have hgoesOn : p.goesOn c = true := List.any_eq_true.mpr ⟨q, mem_all q, hgoes⟩
    have hclash := h c hc
    rw [Punct.clashes, hgoesOn] at hclash
    cases hclash
  · -- Only `?.` goes on with a point, and not before a digit.
    have honly : ∀ q ∈ Punct.all, ['?', '.'].isPrefixOf q.text.toList = true →
        q = .questionDot := by
      decide
    cases hc
    obtain rfl := honly q (mem_all q) hgoes
    have htext : Punct.question.text.toList = ['?'] := by decide
    rw [htext] at hdot
    have hdigit : d.isDigit = false := by simpa using hdot
    rw [hd] at hdigit
    cases hdigit

/-! ## Between the tokens -/

theorem runs_onCursor {α : Type} {read : Scan α} {s : Scanner} {a : α} {c : Cursor}
    (h : Runs read s.cursor a c) : Runs (onCursor read) s a { s with cursor := c } := by
  unfold Runs onCursor
  rw [h]

theorem runs_shebang {s : Scanner} (h : shebangLine? s.chars = none) : Runs shebang s () s := by
  refine Runs.bind (Runs.pure _ _) ?_
  split
  · split
    · next hsome =>
      rw [h] at hsome
      cases hsome
    · rfl
  · rfl

theorem blanks_of_cons (file : Nat) (t : Trivia) (pos : Position) (hblank : isWhiteSpace c = false)
    (hcomment : c = '/' → ∀ d ∈ r.head?, d ≠ '/' ∧ d ≠ '*') :
    Trivia.blanks file t pos (c :: r) = .ok t ⟨pos, c :: r⟩ := by
  have hline : isLineEnd c = false := by
    simpa [hblank] using mt (@isWhiteSpace_of_isLineEnd c)
  unfold Trivia.blanks
  split
  · next h => cases h
  · next h =>
    cases h
    exact absurd rfl (hcomment rfl '/' rfl).1
  · next h =>
    cases h
    exact absurd rfl (hcomment rfl '*' rfl).2
  · next h =>
    cases h
    cases hline
  · next h =>
    cases h
    simp [hline, hblank]

/-! ## Lexemes -/

theorem isIdPart_of_fixedSpace (hle : '\u2000' ≤ c) (hge : c ≤ '\u200a') : isIdPart c = false := by
  have hall : ∀ k < 11, isIdPart (Char.ofNat (0x2000 + k)) = false := by
    decide +kernel
  have hle' : 0x2000 ≤ c.toNat := hle
  have hge' : c.toNat ≤ 0x200a := hge
  have hc := hall (c.toNat - 0x2000) (by omega)
  rwa [Nat.add_sub_cancel' hle', Char.ofNat_toNat] at hc

theorem isWhiteSpace_of_isIdPart (h : isIdPart c = true) : isWhiteSpace c = false := by
  have hne : ∀ d, isIdPart d = false → (c == d) = false := fun d hd =>
    beq_eq_false_iff_ne.mpr (ne_of_apply_ne isIdPart (by simp [h, hd]))
  have hfixed : (decide ('\u2000' ≤ c) && decide (c ≤ '\u200a')) = false := by
    by_contra hsome
    rw [Bool.not_eq_false, Bool.and_eq_true, decide_eq_true_eq, decide_eq_true_eq] at hsome
    rw [isIdPart_of_fixedSpace hsome.1 hsome.2] at h
    cases h
  have hline : isLineEnd c = false := isLineEnd_of_isIdPart h
  have hspaces : ∀ d ∈ ['\u00a0', '\ufeff', '\u1680', '\u202f', '\u205f', '\u3000'],
      isIdPart d = false := by
    decide +kernel
  rw [isWhiteSpace, hfixed, hline, hne '\t' (by decide), hne '\x0b' (by decide),
    hne '\x0c' (by decide), hne ' ' (by decide), hne _ (hspaces '\u00a0' (by simp)),
    hne _ (hspaces '\ufeff' (by simp)), hne _ (hspaces '\u1680' (by simp)),
    hne _ (hspaces '\u202f' (by simp)), hne _ (hspaces '\u205f' (by simp)),
    hne _ (hspaces '\u3000' (by simp))]
  rfl

variable {s : Scanner} {pos : Position} {c : Char} {w r : List Char}

theorem runs_onCursor_advance (hs : s.cursor = ⟨pos, c :: r⟩) (hline : isLineEnd c = false) :
    Runs (onCursor Scan.advance) s () { s with cursor := ⟨pos.pastChar c, r⟩ } := by
  refine runs_onCursor ?_
  rw [hs]
  exact Scan.runs_advance hline

theorem not_isIdStart_of_isDigit (h : c.isDigit = true) : isIdStart c = false := by
  have hall : ∀ n < 58, 48 ≤ n → isIdStart (Char.ofNat n) = false := by
    decide
  simp only [Char.isDigit, Bool.and_eq_true, decide_eq_true_eq] at h
  have hlow : 48 ≤ c.toNat := h.1
  have hhigh : c.toNat ≤ 57 := h.2
  have hc := hall c.toNat (by omega) hlow
  rwa [Char.ofNat_toNat] at hc

theorem runs_lexeme_name (hs : s.cursor = ⟨pos, c :: (w ++ r)⟩) (hc : isIdStart c = true)
    (hw : ∀ c ∈ w, isIdPart c = true) (hr : EndsWord r) :
    Runs (lexeme ⟨pos, c :: (w ++ r)⟩ c) s (Literal.ofName (String.ofList (c :: w)))
      { s with cursor := ⟨pos.past (c :: w), r⟩ } := by
  have hne : ∀ d, isIdStart d = false → (c == d) = false := fun d hd =>
    beq_eq_false_iff_ne.mpr (ne_of_apply_ne isIdStart (by simp [hc, hd]))
  have hdigit : c.isDigit = false := by simpa [hc] using mt (@not_isIdStart_of_isDigit c)
  have hadvance := runs_onCursor_advance hs (isLineEnd_of_isIdPart (isIdPart_of_isIdStart hc))
  refine Runs.bind (Runs.pure _ _) (Runs.bind hadvance ?_)
  refine Runs.ite_neg (by simp [hne '/' (by decide)]) ?_
  refine Runs.ite_neg (by simp [hne '"' (by decide), hne '\'' (by decide)]) ?_
  refine Runs.ite_neg (by simp [hne '`' (by decide)]) (Runs.bind (Runs.pure _ _) ?_)
  refine Runs.ite_neg (by simp [hdigit, hne '.' (by decide)]) ?_
  refine Runs.ite_neg (by simp [hne '#' (by decide)]) (Runs.ite_pos (by simp [hc]) ?_)
  exact runs_onCursor (Literal.runs_identifier hc hw hr pos (pos.pastChar c))

theorem runs_lexeme_number {x : Float} (hs : s.cursor = ⟨pos, c :: (w ++ r)⟩)
    (hx : Literal.NumberText x (c :: w)) (hr : EndsNumeral (c :: w) r)
    (hstrict : s.strict = false) :
    Runs (lexeme ⟨pos, c :: (w ++ r)⟩ c) s (.number x)
      { s with cursor := ⟨pos.past (c :: w), r⟩ } := by
  obtain ⟨c', w', heq, hhead⟩ := Literal.exists_head_of_numberText hx
  cases heq
  have hfirst : (c.isDigit || c == '.' && (w ++ r).head?.any Char.isDigit) = true := by
    rcases hhead with hd | ⟨rfl, d, w', rfl, hd⟩
    · simp [hd]
    · simp [hd]
  have hne : ∀ d, d.isDigit = false → d ≠ '.' → (c == d) = false := by
    intro d hd hdot
    rw [beq_eq_false_iff_ne]
    rintro rfl
    rcases hhead with h | ⟨h, -⟩
    · rw [hd] at h
      cases h
    · exact hdot h
  have hline : isLineEnd c = false := by
    rcases hhead with h | ⟨rfl, -⟩
    · exact isLineEnd_of_isDigit h
    · rfl
  have hadvance := runs_onCursor_advance hs hline
  refine Runs.bind (Runs.pure _ _) (Runs.bind hadvance ?_)
  refine Runs.ite_neg (by simp [hne '/' (by decide) (by decide)]) ?_
  refine Runs.ite_neg
    (by simp [hne '"' (by decide) (by decide), hne '\'' (by decide) (by decide)]) ?_
  refine Runs.ite_neg (by simp [hne '`' (by decide) (by decide)]) (Runs.bind (Runs.pure _ _) ?_)
  refine Runs.ite_pos hfirst ?_
  rw [hstrict]
  exact runs_onCursor (Literal.runs_number hx hr false ⟨pos, c :: (w ++ r)⟩ rfl
    (pos.pastChar c) rfl)

theorem runs_lexeme_string {q : Char} {text : String} (hs : s.cursor = ⟨pos, q :: (w ++ r)⟩)
    (hq : q = '"' ∨ q = '\'') (hw : Literal.StandsFor q w (units text)) :
    Runs (lexeme ⟨pos, q :: (w ++ r)⟩ q) s (.string text none)
      { s with cursor := ⟨pos.past (q :: w), r⟩ } := by
  have hline : isLineEnd q = false := by
    rcases hq with rfl | rfl <;> rfl
  have hadvance := runs_onCursor_advance hs hline
  refine Runs.bind (Runs.pure _ _) (Runs.bind hadvance (Runs.ite_neg ?_ (Runs.ite_pos ?_ ?_)))
  · rcases hq with rfl | rfl <;> decide
  · rcases hq with rfl | rfl <;> decide
  · exact runs_onCursor (Literal.runs_string hq hw s.strict _ (pos.pastChar q) r)

def FirstChar (p : Punct) : List Char → Prop
  | c :: w => isWhiteSpace c = false ∧ isIdStart c = false ∧ c.isDigit = false ∧
    c ∉ ['"', '\'', '`', '#', '\\'] ∧ (c = '/' ↔ p = .slash ∨ p = .slashEqual) ∧
    (c = '.' → p = .dot ∨ w.head? = some '.') ∧ (c = '\x7d' → p = .rightBrace) ∧
    ∀ d ∈ c :: w, isLineEnd d = false
  | [] => False

instance (p : Punct) (cs : List Char) : Decidable (FirstChar p cs) := by
  unfold FirstChar
  split <;> infer_instance

theorem firstChar_text (hp : p.isSimple = true) : FirstChar p p.text.toList := by
  have hall : ∀ p ∈ Punct.all, p.isSimple = true → FirstChar p p.text.toList := by
    decide +kernel
  exact hall p (mem_all p) hp

theorem runs_punct (hp : p.isSimple = true) (hpc : p.text.toList = c :: w) (hr : p.PartedFrom r)
    (cursor : Cursor) :
    Runs (punct ⟨pos, c :: (w ++ r)⟩ c) cursor (.punct p) ⟨pos.past (c :: w), r⟩ := by
  have hpunct : longestPunct? (c :: (w ++ r)) = some p := by
    have h := longestPunct?_eq hp hr
    rwa [hpc] at h
  have hlen : p.text.length = (c :: w).length := by
    rw [← hpc, String.length_toList]
  unfold punct
  rw [hpunct]
  show Runs (do
    set (⟨p.text.toList.foldl Position.pastChar pos, (c :: (w ++ r)).drop p.text.length⟩ : Cursor)
    return Lexeme.punct p) _ _ _
  rw [hpc, hlen, ← List.cons_append, List.drop_left]
  rfl

theorem runs_lexeme_punct (hp : p.isSimple = true) (hpc : p.text.toList = c :: w)
    (hs : s.cursor = ⟨pos, c :: (w ++ r)⟩) (hr : p.PartedFrom r)
    (hslash : p ≠ .slash ∧ p ≠ .slashEqual) (htemplates : s.templates = []) :
    ∃ braces, Runs (lexeme ⟨pos, c :: (w ++ r)⟩ c) s (.punct p)
      { s with cursor := ⟨pos.past (c :: w), r⟩, braces := braces } := by
  obtain ⟨-, hid, hdigit, hchars, hsl, hdot, hright, hlines⟩ := hpc ▸ firstChar_text hp
  simp only [List.mem_cons, List.not_mem_nil, or_false, not_or] at hchars
  obtain ⟨hdq, hsq, hbq, hhash, hback⟩ := hchars
  have hne : c ≠ '/' := fun h => by
    rcases hsl.mp h with h | h
    · exact hslash.1 h
    · exact hslash.2 h
  have hfirst : (c.isDigit || c == '.' && (w ++ r).head?.any Char.isDigit) = false := by
    by_cases hpoint : c = '.'
    · rcases hdot hpoint with rfl | hhead
      · have hw : w = [] := by
          have htext : Punct.dot.text.toList = ['.'] := by decide
          rw [htext] at hpc
          exact (List.cons.inj hpc).2.symm
        subst hw
        rcases hr with hr | ⟨hr, -⟩
        · have hnext : r.head?.any Char.isDigit = false := by
            cases hhead : r.head? with
            | none => rfl
            | some d =>
              have hclash := hr d hhead
              simp only [Punct.clashes, Bool.or_eq_false_iff] at hclash
              exact hclash.2
          simp [hdigit, hnext]
        · cases hr
      · cases w with
        | nil => cases hhead
        | cons d w =>
          cases hhead
          simp [hdigit]
    · simp [hdigit, hpoint]
  have hadvance := runs_onCursor_advance hs (hlines c List.mem_cons_self)
  have hlexeme : ∀ {s' : Scanner}, Runs (if c == '\x7d' then closingBrace pos else
      (do if c == '\x7b' then modify fun s => { s with braces := s.braces + 1 }
          onCursor (punct ⟨pos, c :: (w ++ r)⟩ c)))
      { s with cursor := ⟨pos.pastChar c, w ++ r⟩ } (.punct p) s' →
      Runs (lexeme ⟨pos, c :: (w ++ r)⟩ c) s (.punct p) s' := fun h =>
    Runs.bind (Runs.pure _ _) (Runs.bind hadvance (Runs.ite_neg (by simpa using hne)
      (Runs.ite_neg (by simp [hdq, hsq]) (Runs.ite_neg (by simp [hbq]) (Runs.bind (Runs.pure _ _)
        (Runs.ite_neg (by rw [Bool.not_eq_true]; exact hfirst) (Runs.ite_neg (by simp [hhash])
          (Runs.ite_neg (by simp [hid, hback]) h))))))))
  by_cases hclose : c = '\x7d'
  · obtain rfl := hright hclose
    cases hpc
    refine ⟨s.braces - 1, hlexeme (Runs.ite_pos rfl (Runs.bind (Runs.pure _ _) ?_))⟩
    rw [htemplates]
    rfl
  · by_cases hopen : c = '\x7b'
    · exact ⟨s.braces + 1, hlexeme (Runs.ite_neg (by simpa using hclose) (Runs.ite_pos
        (by simpa using hopen) (Runs.bind rfl (runs_onCursor (runs_punct hp hpc hr _)))))⟩
    · exact ⟨s.braces, hlexeme (Runs.ite_neg (by simpa using hclose) (Runs.ite_neg
        (by simpa using hopen) (runs_onCursor (runs_punct hp hpc hr _))))⟩

/-! ### Slashes -/

theorem kind_of_runs_regexp {start : Position} {c c' : Cursor}
    (h : Runs (Literal.regexp start) c l c') : l.kind = .regexp := by
  iterate 8 obtain ⟨_, _, -, h⟩ := h.exists_of_bind
  dsimp only at h
  split at h
  · cases h
    rfl
  · cases h

theorem runs_division (hp : p = .slash ∨ p = .slashEqual) (hpc : p.text.toList = '/' :: w)
    (hr : p.PartedFrom r) : Runs division ⟨pos, w ++ r⟩ (.punct p) ⟨pos.past w, r⟩ := by
  rcases hp with rfl | rfl
  · cases hpc
    have hne : ∀ d ∈ r.head?, d ≠ '=' := by
      rintro d hd rfl
      rcases hr with hr | ⟨hr, -⟩
      · have hclash : Punct.slash.clashes '=' = true := by decide
        rw [hr _ hd] at hclash
        cases hclash
      · cases hr
    exact Runs.bind (Scan.runs_eat_of_not_head (c := ⟨pos, r⟩) hne) rfl
  · cases hpc
    exact Runs.bind (Scan.runs_eat_of_head rfl) rfl

theorem runs_lexeme_slash (hp : p = .slash ∨ p = .slashEqual) (hpc : p.text.toList = '/' :: w)
    (hs : s.cursor = ⟨pos, '/' :: (w ++ r)⟩) (hr : p.PartedFrom r) :
    Runs (lexeme ⟨pos, '/' :: (w ++ r)⟩ '/') s (.punct p)
      { s with cursor := ⟨pos.past ('/' :: w), r⟩ } ∨
    ∃ l c, Runs (lexeme ⟨pos, '/' :: (w ++ r)⟩ '/') s l { s with cursor := c } ∧
      l.kind = .regexp := by
  have hadvance := runs_onCursor_advance hs (show isLineEnd '/' = false from rfl)
  have hdivision : Runs division ⟨pos.pastChar '/', w ++ r⟩ (.punct p)
      ⟨(pos.pastChar '/').past w, r⟩ := runs_division hp hpc hr
  have hopen : ∀ {l : Lexeme} {s' : Scanner},
      Runs (slash pos) { s with cursor := ⟨pos.pastChar '/', w ++ r⟩ } l s' →
      Runs (lexeme ⟨pos, '/' :: (w ++ r)⟩ '/') s l s' := fun h =>
    Runs.bind (Runs.pure _ _) (Runs.bind hadvance (Runs.ite_pos rfl h))
  by_cases hguess : s.guess s.lastKind = true
  · cases hregexp : Literal.regexp pos ⟨pos.pastChar '/', w ++ r⟩ with
    | ok l c =>
      refine .inr ⟨l, c, hopen (Runs.bind (Runs.pure _ _) (Runs.ite_pos hguess ?_)),
        kind_of_runs_regexp hregexp⟩
      rw [hregexp]
      rfl
    | error e c =>
      refine .inl (hopen (Runs.bind (Runs.pure _ _) (Runs.ite_pos hguess ?_)))
      rw [hregexp]
      exact runs_onCursor hdivision
  · exact .inl (hopen (Runs.bind (Runs.pure _ _) (Runs.ite_neg hguess (runs_onCursor hdivision))))

theorem isIdStart_of_isIdentifierName (h : isIdentifierName name = true)
    (ht : name.toList = c :: w) : isIdStart c = true ∧ ∀ d ∈ w, isIdPart d = true := by
  unfold isIdentifierName at h
  rw [ht] at h
  simpa using h

theorem isIdentifierName_text (v : Word) : isIdentifierName v.text = true := by
  cases v <;> decide +kernel

theorem ofName_text (v : Word) : Literal.ofName v.text = .word v := by
  rw [Literal.ofName, Word.ofText?_text]

theorem ofName_of_ofText? (h : Word.ofText? name = none) :
    Literal.ofName name = .identifier name := by
  rw [Literal.ofName, h]

theorem exists_head_of_isIdentifierName {P : Prop} (h : isIdentifierName name = true) :
    ∃ c w, name.toList = c :: w ∧ isWhiteSpace c = false ∧ c ≠ '#' ∧ (c = '/' → P) := by
  cases ht : name.toList with
  | nil =>
    unfold isIdentifierName at h
    rw [ht] at h
    cases h
  | cons c w =>
    have hc := isIdPart_of_isIdStart (isIdStart_of_isIdentifierName h ht).1
    refine ⟨c, w, rfl, isWhiteSpace_of_isIdPart hc, ?_, ?_⟩
    · rintro rfl
      cases hc
    · rintro rfl
      cases hc

theorem exists_head_of_spells (h : Spells l t) : ∃ c w, t = c :: w ∧
    isWhiteSpace c = false ∧ c ≠ '#' ∧
    (c = '/' → l = .punct .slash ∨ l = .punct .slashEqual) := by
  cases h with
  | identifier hname _ => exact exists_head_of_isIdentifierName hname
  | word v => exact exists_head_of_isIdentifierName (isIdentifierName_text v)
  | number hx =>
    obtain ⟨c, w, rfl, hhead⟩ := Literal.exists_head_of_numberText hx
    refine ⟨c, w, rfl, ?_, ?_, ?_⟩
    · rcases hhead with h | ⟨rfl, -⟩
      · exact isWhiteSpace_of_isIdPart (isIdPart_of_isDigit h)
      · rfl
    · rintro rfl
      rcases hhead with h | ⟨h, -⟩ <;> cases h
    · rintro rfl
      rcases hhead with h | ⟨h, -⟩ <;> cases h
  | string text =>
    obtain ⟨q, w, hquote, hq, -⟩ := Literal.toList_quote {} text
    refine ⟨q, w, hquote, ?_, ?_, ?_⟩
    · rcases hq with rfl | rfl <;> decide
    · rcases hq with rfl | rfl <;> decide
    · rintro rfl
      rcases hq with h | h <;> cases h
  | @punct p hp =>
    have hfirst := firstChar_text hp
    cases ht : p.text.toList with
    | nil =>
      rw [ht] at hfirst
      exact hfirst.elim
    | cons c w =>
      obtain ⟨hblank, -, -, hchars, hslash, -⟩ := ht ▸ hfirst
      refine ⟨c, w, rfl, hblank, ?_, fun h => ?_⟩
      · rintro rfl
        exact hchars (by decide)
      rcases hslash.mp h with rfl | rfl
      · exact .inl rfl
      · exact .inr rfl

/-- A spelling that is parted from what follows is scanned as the lexeme, but a division may be
taken for a regular expression. -/
theorem runs_lexeme (hspells : Spells l t) (ht : t = c :: w) (hparted : PartedFrom l t r)
    (hs : s.cursor = ⟨pos, c :: (w ++ r)⟩) (hstrict : s.strict = false)
    (htemplates : s.templates = []) :
    (∃ braces, Runs (lexeme ⟨pos, c :: (w ++ r)⟩ c) s l
      { s with cursor := ⟨pos.past (c :: w), r⟩, braces := braces }) ∨
    ∃ l' cursor p, Runs (lexeme ⟨pos, c :: (w ++ r)⟩ c) s l' { s with cursor := cursor } ∧
      l'.kind = .regexp ∧ l = .punct p ∧ (p = .slash ∨ p = .slashEqual) ∧
      p.text.toList = c :: w := by
  cases hspells with
  | @identifier name hname hword =>
    obtain ⟨hc, hw⟩ := isIdStart_of_isIdentifierName hname ht
    have hrun := runs_lexeme_name hs hc hw hparted
    rw [← ht, String.ofList_toList, ofName_of_ofText? hword] at hrun
    rw [← ht]
    exact .inl ⟨s.braces, hrun⟩
  | word v =>
    obtain ⟨hc, hw⟩ := isIdStart_of_isIdentifierName (isIdentifierName_text v) ht
    have hrun := runs_lexeme_name hs hc hw hparted
    rw [← ht, String.ofList_toList, ofName_text] at hrun
    rw [← ht]
    exact .inl ⟨s.braces, hrun⟩
  | number hx =>
    subst ht
    exact .inl ⟨s.braces, runs_lexeme_number hs hx hparted hstrict⟩
  | string text =>
    obtain ⟨q, w', hquote, hq, hw⟩ := Literal.toList_quote {} text
    rw [hquote] at ht
    obtain ⟨rfl, rfl⟩ := List.cons.inj ht
    exact .inl ⟨s.braces, runs_lexeme_string hs hq hw⟩
  | @punct p hp =>
    by_cases hslash : p = .slash ∨ p = .slashEqual
    · obtain ⟨-, -, -, -, hfirst, -⟩ := ht ▸ firstChar_text hp
      obtain rfl : c = '/' := hfirst.mpr hslash
      rcases runs_lexeme_slash hslash ht hs hparted with hrun | ⟨l, cursor, hrun, hkind⟩
      · exact .inl ⟨s.braces, hrun⟩
      · exact .inr ⟨l, cursor, p, hrun, hkind, rfl, hslash, ht⟩
    · rw [not_or] at hslash
      exact .inl (runs_lexeme_punct hp ht hs hparted hslash htemplates)

/-! ## Tokens -/

/-- A scanner has a text before it that is legible as some lexemes. -/
structure Ahead (s : Scanner) (ls : List Lexeme) : Prop where
  legible : Legible s.cursor.rest ls
  stands : s.cursor.StandsIn s.chars
  shebang : shebangLine? s.chars = none
  strict : s.strict = false
  templates : s.templates = []

/-- A division was scanned as a regular expression; the scanner set back to its start has the
division before it, and then some lexemes. -/
structure Misread (s : Scanner) (t : Token) (p : Punct) (ls : List Lexeme) : Prop where
  kind : t.kind = .regexp
  slash : p = .slash ∨ p = .slashEqual
  chars : ∃ r, (s.resetTo t.span.start).cursor.rest = p.text.toList ++ r ∧ p.PartedFrom r ∧
    Legible r ls
  stands : (s.resetTo t.span.start).cursor.StandsIn s.chars
  shebang : shebangLine? s.chars = none
  strict : s.strict = false
  templates : s.templates = []

theorem not_comment_of_partedFrom (hspells : Spells l t) (ht : t = c :: w)
    (hparted : PartedFrom l t r) : c = '/' → ∀ d ∈ (w ++ r).head?, d ≠ '/' ∧ d ≠ '*' := by
  rintro rfl d hd
  obtain ⟨c', w', ht', -, -, hslash⟩ := exists_head_of_spells hspells
  rw [ht] at ht'
  cases ht'
  rcases hslash rfl with rfl | rfl <;> cases hspells
  · cases ht
    rcases hparted with h | ⟨h, -⟩
    · have hclash := h d hd
      simp only [Punct.clashes, Bool.or_eq_false_iff, beq_self_eq_true, Bool.true_and,
        beq_eq_false_iff_ne] at hclash
      exact hclash.1.2
    · cases h
  · cases ht
    cases hd
    decide

theorem runs_trivia (file : Nat) (hgap : gap = [] ∨ gap = [' ']) (hblank : isWhiteSpace c = false)
    (hcomment : c = '/' → ∀ d ∈ r.head?, d ≠ '/' ∧ d ≠ '*') :
    Runs (Trivia.read file) ⟨pos, gap ++ c :: r⟩ .none ⟨pos.past gap, c :: r⟩ := by
  rcases hgap with rfl | rfl
  · exact blanks_of_cons file .none pos hblank hcomment
  · exact blanks_of_cons file .none (pos.pastChar ' ') hblank hcomment

/-- A lexeme after a gap is the next token. -/
theorem runs_next {s' : Scanner} (hshebang : shebangLine? s.chars = none)
    (hs : s.cursor = ⟨pos, gap ++ c :: r⟩) (hgap : gap = [] ∨ gap = [' '])
    (hblank : isWhiteSpace c = false) (hcomment : c = '/' → ∀ d ∈ r.head?, d ≠ '/' ∧ d ≠ '*')
    (hlexeme : Runs (lexeme ⟨pos.past gap, c :: r⟩ c)
      { s with cursor := ⟨pos.past gap, c :: r⟩ } l s') :
    Runs next s ⟨l, s'.cursor.spanFrom (pos.past gap) s'.file, false, []⟩
      { s' with lastKind := some l.kind } := by
  have htrivia : Runs (onCursor (Trivia.read s.file)) s .none
      { s with cursor := ⟨pos.past gap, c :: r⟩ } := by
    refine runs_onCursor ?_
    rw [hs]
    exact runs_trivia s.file hgap hblank hcomment
  exact Runs.bind (runs_shebang hshebang) (Runs.bind (Runs.pure _ _)
    (Runs.bind htrivia (Runs.bind (Runs.pure _ _) (Runs.bind hlexeme rfl))))

/-- The next token of a legible text is its first lexeme, or a division that is taken for a
regular expression. -/
theorem next_of_ahead (h : Ahead s (l :: ls)) :
    ∃ t s', Runs next s t s' ∧ t.afterNewline = false ∧ t.comments = [] ∧ s'.chars = s.chars ∧
      s'.shebang = s.shebang ∧
      ((t.lexeme = l ∧ Ahead s' ls) ∨ ∃ p, l = .punct p ∧ Misread s' t p ls) := by
  obtain ⟨hlegible, hstands, hshebang, hstrict, htemplates⟩ := h
  generalize hrest : s.cursor.rest = rest at hlegible
  cases hlegible with
  | @cons gap t r _ _ hgap hspells hparted hr =>
    obtain ⟨c, w, ht, hblank, -⟩ := exists_head_of_spells hspells
    have hcomment := not_comment_of_partedFrom hspells ht hparted
    have hstart : s.cursor = ⟨s.cursor.pos, gap ++ c :: (w ++ r)⟩ := by
      rw [ht] at hrest
      rw [← List.cons_append, ← hrest]
    have hgapped : Cursor.StandsIn ⟨s.cursor.pos.past gap, (c :: w) ++ r⟩ s.chars :=
      hstands.past (by rw [hstart]; rfl)
    rcases runs_lexeme (s := { s with cursor := ⟨s.cursor.pos.past gap, c :: (w ++ r)⟩ })
      hspells ht hparted rfl hstrict htemplates with
      ⟨_, hrun⟩ | ⟨l', cursor, p, hrun, hkind, rfl, hp, hpt⟩
    · refine ⟨_, _, runs_next hshebang hstart hgap hblank hcomment hrun, rfl, rfl, rfl, rfl,
        .inl ⟨rfl, hr, ?_, hshebang, hstrict, htemplates⟩⟩
      exact (hgapped.past rfl : Cursor.StandsIn ⟨(s.cursor.pos.past gap).past (c :: w), r⟩ s.chars)
    · refine ⟨_, _, runs_next hshebang hstart hgap hblank hcomment hrun, rfl, rfl, rfl, rfl,
        .inr ⟨p, rfl, hkind, hp, ?_, ?_, hshebang, hstrict, htemplates⟩⟩
      · exact ⟨r, hgapped.dropBytes.trans (by rw [hpt]), hparted, hr⟩
      · show Cursor.StandsIn ⟨_, dropBytes (s.cursor.pos.past gap).offset s.chars⟩ s.chars
        rw [hgapped.dropBytes]
        exact hgapped

theorem runs_next_end (hrest : s.cursor.rest = []) (hshebang : shebangLine? s.chars = none) :
    ∃ t, Runs next s t s ∧ t.lexeme = .endOfInput ∧ t.afterNewline = false ∧ t.comments = [] := by
  obtain ⟨chars, file, ⟨pos, rest⟩, templates, braces, lastKind, strict, shebang, guess⟩ := s
  cases hrest
  exact ⟨⟨.endOfInput, ⟨pos, pos, file⟩, false, []⟩,
    Runs.bind (runs_shebang hshebang) rfl, rfl, rfl,
    rfl⟩

theorem next_of_end (h : Ahead s []) : ∃ t, Runs next s t s ∧ t.lexeme = .endOfInput ∧
    t.afterNewline = false ∧ t.comments = [] := by
  refine runs_next_end ?_ h.shebang
  generalize hrest : s.cursor.rest = rest
  have hlegible := hrest ▸ h.legible
  cases hlegible
  rfl

theorem rescanDivision_of_misread {t : Token} (h : Misread s t p ls) :
    ∃ t' s', Runs (rescanDivision t) s t' s' ∧ t'.lexeme = .punct p ∧
      t'.afterNewline = t.afterNewline ∧ t'.comments = t.comments ∧ s'.chars = s.chars ∧
      s'.shebang = s.shebang ∧ Ahead s' ls := by
  obtain ⟨-, hp, ⟨r, hrest, hparted, hr⟩, hstands, hshebang, hstrict, htemplates⟩ := h
  have htext : ∃ w, p.text.toList = '/' :: w := by
    rcases hp with rfl | rfl
    · exact ⟨[], by decide⟩
    · exact ⟨['='], by decide⟩
  obtain ⟨w, hw⟩ := htext
  rw [hw] at hrest
  have hcursor : (s.resetTo t.span.start).cursor = ⟨t.span.start, '/' :: (w ++ r)⟩ :=
    congrArg (Cursor.mk t.span.start) hrest
  have hread : Runs (onCursor (do Scan.advance; division)) (s.resetTo t.span.start) (.punct p)
      { s.resetTo t.span.start with cursor := ⟨t.span.start.past ('/' :: w), r⟩ } := by
    refine runs_onCursor ?_
    rw [hcursor]
    exact Runs.bind (Scan.runs_advance rfl) (runs_division hp hw hparted)
  refine ⟨_, _, Runs.bind rfl (Runs.bind hread rfl), rfl, rfl, rfl, rfl, rfl, hr, ?_, hshebang,
    hstrict, htemplates⟩
  exact hstands.past (w := '/' :: w) (r := r) (by rw [hcursor]; rfl)

theorem runs_remaining_end (bound : Nat) (hrest : s.cursor.rest = [])
    (hshebang : shebangLine? s.chars = none) : Runs (remaining (bound + 1)) s [] s := by
  obtain ⟨t, hend, hlexeme, -⟩ := runs_next_end hrest hshebang
  refine Runs.bind hend ?_
  rw [hlexeme]
  rfl

/-- A string in quotes, and nothing else, is scanned as one token that covers it, in both modes
and with every way to write it. -/
theorem remaining_quote (o : OutputOptions) (strict : Bool) (v : String) : ∃ t s',
    remaining ((Spelling.quote o v).length + 1)
      { Scanner.ofText (Spelling.quote o v) 0 with strict := strict } = .ok [t] s' ∧
    t.lexeme = .string v none ∧
    t.span = ⟨.first, Position.first.past (Spelling.quote o v).toList, 0⟩ ∧ s'.atEnd = true := by
  obtain ⟨q, cs, hquote, hq, hcs⟩ := Literal.toList_quote o v
  generalize hs : ({ Scanner.ofText (Spelling.quote o v) 0 with strict := strict } : Scanner) = s
  have hcursor : s.cursor = ⟨.first, [] ++ q :: (cs ++ [])⟩ := by
    rw [← hs, List.append_nil, List.nil_append, ← hquote]
    rfl
  have hshebang : shebangLine? s.chars = none := by
    have hchars : s.chars = q :: cs := by rw [← hs, ← hquote]; rfl
    rw [hchars]
    rcases hq with rfl | rfl <;> rfl
  have hblank : isWhiteSpace q = false := by
    rcases hq with rfl | rfl <;> decide
  have hcomment : q = '/' → ∀ d ∈ (cs ++ []).head?, d ≠ '/' ∧ d ≠ '*' := by
    rintro rfl
    rcases hq with h | h <;> cases h
  have hnext := runs_next hshebang hcursor (.inl rfl) hblank hcomment
    (runs_lexeme_string rfl hq hcs)
  rw [← String.length_toList, hquote]
  exact ⟨_, _, Runs.bind hnext (Runs.bind (runs_remaining_end cs.length rfl hshebang) rfl), rfl,
    by rw [← hs]; rfl, rfl⟩

end Scanning

end Laconic
