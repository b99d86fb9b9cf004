import Laconic.Proofs.Number.Numeral
import Laconic.Proofs.Token.Cursor

/-!
# Scanning numerals

A numeral is scanned to its end if what follows neither is part of a name nor, after
digits alone, a point.
-/

namespace Laconic

open Number DecimalText

variable {c : Char}

/-! ## Characters -/

theorem isIdPart_of_digitValue? {radix : Nat} (h : (digitValue? radix c).isSome = true) :
    isIdPart c = true := by
  unfold digitValue? at h
  by_cases hd : c.isDigit = true
  · simp [isIdPart, isNumeric_of_isDigit hd]
  by_cases hl : c.isLower = true
  · have : isLetter c = true := isLetter_of_isAlpha (by simp [Char.isAlpha, hl])
    simp [isIdPart, this]
  by_cases hu : c.isUpper = true
  · have : isLetter c = true := isLetter_of_isAlpha (by simp [Char.isAlpha, hu])
    simp [isIdPart, this]
  · simp [hd, hl, hu] at h

theorem isIdPart_of_isDigit (h : c.isDigit = true) : isIdPart c = true := by
  simp [isIdPart, isNumeric_of_isDigit h]

theorem isIdPart_of_isIdStart (h : isIdStart c = true) : isIdPart c = true := by
  simp only [isIdStart, isIdPart, Bool.or_eq_true] at h ⊢
  rcases h with (h | h) | h <;> simp [h]

theorem isLineEnd_of_isIdPart (h : isIdPart c = true) : isLineEnd c = false := by
  by_contra hline
  rw [Bool.not_eq_false] at hline
  simp only [isLineEnd, Bool.or_eq_true, beq_iff_eq] at hline
  rcases hline with ((rfl | rfl) | rfl) | rfl <;> revert h <;> decide +kernel

theorem isLineEnd_of_isDigit (h : c.isDigit = true) : isLineEnd c = false :=
  isLineEnd_of_isIdPart (isIdPart_of_isDigit h)

theorem digitValue?_of_isDigit (h : c.isDigit = true) :
    digitValue? 10 c = some (c.toNat - '0'.toNat) := by
  have hlt : c.toNat - '0'.toNat < 10 := by
    have : c.toNat ≤ '9'.toNat := by
      simp only [Char.isDigit, Bool.and_eq_true, decide_eq_true_eq] at h
      exact h.2
    have : '9'.toNat = 57 := rfl
    have : '0'.toNat = 48 := rfl
    omega
  simp only [digitValue?, h]
  simpa using hlt

/-- What may follow a token that ends in a name or number. -/
def EndsWord (r : List Char) : Prop := ∀ c ∈ r.head?, isIdPart c = false ∧ c ≠ '\\'

/-- What may follow a numeral. -/
def EndsNumeral (cs r : List Char) : Prop :=
  EndsWord r ∧ ((∀ c ∈ cs, c.isDigit = true) → r.head? ≠ some '.')

namespace Literal

open Scan

variable {c : Char} {cs : List Char} {x : Float} {n : Nat}

theorem not_digit_of_endsWord {r : List Char} (h : EndsWord r) (radix : Nat) :
    ∀ c ∈ r.head?, ((digitValue? radix c).isSome || c == '_') = false := by
  intro c hc
  have hpart := (h c hc).1
  rw [Bool.or_eq_false_iff]
  constructor
  · by_contra hdigit
    rw [Bool.not_eq_false] at hdigit
    rw [isIdPart_of_digitValue? hdigit] at hpart
    cases hpart
  · rw [beq_eq_false_iff_ne]
    rintro rfl
    cases hpart

theorem runs_digits {ds r : List Char} (hds : ∀ c ∈ ds, c.isDigit = true)
    (hr : ∀ c ∈ r.head?, ((digitValue? 10 c).isSome || c == '_') = false) (pos : Position) :
    Runs (digits 10) ⟨pos, ds ++ r⟩ () ⟨pos.past ds, r⟩ := by
  apply runs_skipWhile _ hr
  intro c hc
  refine ⟨?_, isLineEnd_of_isDigit (hds c hc)⟩
  rw [digitValue?_of_isDigit (hds c hc)]
  rfl

variable {t : DecimalText} {r : List Char}

theorem chars_eq_whole (hf : t.fraction = none) (he : t.exponent = none) : t.chars = t.whole := by
  simp [chars, fractionChars, exponentChars, hf, he]

theorem not_digit_exponentChars (hr : EndsWord r) :
    ∀ c ∈ (t.exponentChars ++ r).head?, ((digitValue? 10 c).isSome || c == '_') = false := by
  intro c hc
  unfold exponentChars at hc
  split at hc
  · cases hc
    decide
  · exact not_digit_of_endsWord hr 10 c hc

theorem runs_exponentDigits {es : List Char} (hes : ∀ c ∈ es, c.isDigit = true) (hne : es ≠ [])
    (hr : EndsWord r) (pos : Position) :
    Runs (do
      if !(← peek?).any Char.isDigit then fail .badExponent (← here)
      digits 10
      return true) ⟨pos, es ++ r⟩ true ⟨pos.past es, r⟩ := by
  refine Runs.bind (runs_peek? _) (Runs.ite_neg ?_ ?_)
  · obtain ⟨e, es', rfl⟩ := List.exists_cons_of_ne_nil hne
    simp [hes e List.mem_cons_self]
  · exact Runs.bind (runs_digits hes (not_digit_of_endsWord hr 10) _) rfl

theorem runs_exponent (h : t.WellFormed) (hr : EndsWord r) (pos : Position) :
    Runs exponent ⟨pos, t.exponentChars ++ r⟩ t.exponent.isSome ⟨pos.past t.exponentChars, r⟩ := by
  refine Runs.bind (runs_peek? _) ?_
  unfold exponentChars
  rcases he : t.exponent with _ | ⟨sign, es⟩
  · rcases r with _ | ⟨c, r⟩
    · rfl
    · have hpart := (hr c rfl).1
      refine Runs.ite_neg ?_ rfl
      simp only [Bool.or_eq_true, beq_iff_eq]
      rintro (rfl | rfl) <;> cases hpart
  · obtain ⟨hsign, hne, hes⟩ := h.exponent _ he
    refine Runs.ite_pos rfl (Runs.bind (runs_advance rfl) (Runs.bind (runs_peek? _) ?_))
    have hdigits := runs_exponentDigits hes hne hr
    rcases hsign with rfl | rfl | rfl
    · refine Runs.ite_neg ?_ (hdigits _)
      obtain ⟨e, es', rfl⟩ := List.exists_cons_of_ne_nil hne
      have hsign := ne_sign_of_isDigit (hes e List.mem_cons_self)
      simpa using hsign.symm
    · exact Runs.ite_pos rfl (Runs.bind (runs_advance rfl) (hdigits _))
    · exact Runs.ite_pos rfl (Runs.bind (runs_advance rfl) (hdigits _))

theorem runs_fractionDigits (h : t.WellFormed) (hr : EndsWord r) {fs : List Char}
    (hfs : t.fraction = some fs) (pos : Position) :
    Runs fractionDigits ⟨pos, fs ++ (t.exponentChars ++ r)⟩ .fraction
      ⟨(pos.past fs).past t.exponentChars, r⟩ := by
  refine Runs.bind (runs_digits (h.fraction fs hfs) (not_digit_exponentChars hr) pos) ?_
  exact Runs.bind (Runs.map (runs_exponent h hr _)) rfl

def formOf (t : DecimalText) : Numeral :=
  if t.fraction.isSome || t.exponent.isSome then .fraction else .whole

theorem runs_afterWhole (h : t.WellFormed) (hr : EndsNumeral t.chars r) (pos : Position) :
    Runs (do if ← eat '.' then fractionDigits else return if ← exponent then .fraction else .whole)
      ⟨pos, t.fractionChars ++ (t.exponentChars ++ r)⟩ (formOf t)
      ⟨(pos.past t.fractionChars).past t.exponentChars, r⟩ := by
  unfold fractionChars formOf
  rcases hf : t.fraction with _ | fs
  · refine Runs.bind (runs_eat_of_not_head ?_) (Runs.ite_neg (by decide)
      (Runs.bind (runs_exponent h hr.1 _) ?_))
    · intro c hc
      unfold exponentChars at hc
      rcases he : t.exponent with _ | ⟨sign, es⟩
      · -- nothing but whole digits
        rw [he] at hc
        rintro rfl
        exact hr.2 (chars_eq_whole hf he ▸ h.whole) hc
      · rw [he] at hc
        cases hc
        decide
    · rcases t.exponent with _ | e <;> rfl
  · exact Runs.bind (runs_eat_of_head rfl) (Runs.ite_pos rfl (runs_fractionDigits h hr.1 hf _))

theorem runs_afterZero (h : t.WellFormed) (hr : EndsNumeral t.chars r)
    (strict : Bool) (start : Cursor) (pos : Position) :
    Runs (afterZero strict start) ⟨pos, t.fractionChars ++ (t.exponentChars ++ r)⟩ (formOf t)
      ⟨(pos.past t.fractionChars).past t.exponentChars, r⟩ := by
  refine Runs.bind (runs_peek? _) ?_
  unfold fractionChars formOf
  rcases hf : t.fraction with _ | fs
  · have hexponent := runs_exponent h hr.1 pos
    unfold exponentChars at hexponent ⊢
    rcases he : t.exponent with _ | ⟨sign, es⟩
    · rcases r with _ | ⟨c, r⟩
      · rfl
      · have hpart := (hr.1 c rfl).1
        have hpoint : c ≠ '.' := by
          rintro rfl
          exact hr.2 (chars_eq_whole hf he ▸ h.whole) rfl
        have hno : ∀ d, isIdPart d = true → c ≠ d := by
          rintro d hd rfl
          rw [hd] at hpart
          cases hpart
        have hdigit : ¬c.isDigit = true := fun hd => hno c (isIdPart_of_isDigit hd) rfl
        refine Runs.ite_neg ?_ (Runs.ite_neg ?_ (Runs.ite_neg ?_ (Runs.ite_neg hdigit
          (Runs.ite_neg ?_ (Runs.ite_neg ?_ rfl)))))
        · simp [hno 'x' rfl, hno 'X' rfl]
        · simp [hno 'o' rfl, hno 'O' rfl]
        · simp [hno 'b' rfl, hno 'B' rfl]
        · simpa using hpoint
        · simp [hno 'e' rfl, hno 'E' rfl]
    · rw [he] at hexponent
      exact Runs.ite_neg (by decide) (Runs.ite_neg (by decide) (Runs.ite_neg (by decide)
        (Runs.ite_neg (by decide) (Runs.ite_neg (by decide) (Runs.ite_pos rfl
          (Runs.bind (Runs.map hexponent) rfl))))))
  · exact Runs.ite_neg (by decide) (Runs.ite_neg (by decide) (Runs.ite_neg (by decide)
      (Runs.ite_neg (by decide) (Runs.ite_pos rfl (Runs.bind (runs_advance rfl)
        (runs_fractionDigits h hr.1 hf _))))))

theorem not_digit_rest (hr : EndsWord r) :
    ∀ c ∈ (t.fractionChars ++ (t.exponentChars ++ r)).head?,
      ((digitValue? 10 c).isSome || c == '_') = false := by
  intro c hc
  unfold fractionChars at hc
  split at hc
  · cases hc
    decide
  · exact not_digit_exponentChars hr c hc

def scanForm (strict : Bool) (first : Char) (start : Cursor) : Scan Numeral :=
  if first == '0' then afterZero strict start
  else if first == '.' then fractionDigits
  else afterDigit

def endNumber (start : Cursor) (form : Numeral) : Scan Lexeme := do
  if (form == .whole || form matches .marked _) && (← peek?) == some 'n' then
    let spelled := start.textTo (← get)
    advance
    checkAfterNumber
    return .bigint (String.ofList (spelled.toList.filter (· != '_')))
  checkAfterNumber
  match numeralValue? form (start.textTo (← get)).toList with
  | some value => return .number value
  | none => fail .badNumber start.pos

theorem number_eq (strict : Bool) (first : Char) (start : Cursor) :
    number strict first start = scanForm strict first start >>= endNumber start := by
  unfold number scanForm
  split
  · rfl
  · split <;> rfl

theorem runs_form (h : t.WellFormed) (hr : EndsNumeral t.chars r) (hchars : t.chars = c :: cs)
    (strict : Bool) (start : Cursor) (pos : Position) :
    Runs (scanForm strict c start) ⟨pos, cs ++ r⟩ (formOf t) ⟨pos.past cs, r⟩ := by
  unfold chars at hchars
  rcases hw : t.whole with _ | ⟨d, ds⟩
  · obtain ⟨f, fs, hf⟩ := h.digits.resolve_left (by simp [hw])
    have hform : formOf t = .fraction := by simp [formOf, hf]
    rw [hw, List.nil_append, fractionChars, hf] at hchars
    cases hchars
    refine Runs.ite_neg (by decide) (Runs.ite_pos rfl ?_)
    have hrun := runs_fractionDigits h hr.1 hf pos
    rw [← List.append_assoc, ← Position.past_append, ← hform] at hrun
    exact hrun
  · rw [hw] at hchars
    cases hchars
    have hdigit := h.whole c (by simp [hw])
    by_cases hzero : c = '0'
    · subst hzero
      have hwhole : t.whole = ['0'] := h.leading.resolve_right (by simp [hw])
      rw [hw] at hwhole
      cases hwhole
      refine Runs.ite_pos rfl ?_
      have hrun := runs_afterZero h hr strict start pos
      rw [← List.append_assoc, ← Position.past_append] at hrun
      exact hrun
    · refine Runs.ite_neg (by simpa using hzero) (Runs.ite_neg ?_ ?_)
      · simp only [beq_iff_eq]
        rintro rfl
        cases hdigit
      · have hds : ∀ d ∈ ds, d.isDigit = true := fun d hd =>
          h.whole d (by rw [hw]; exact List.mem_cons_of_mem _ hd)
        have hrun : Runs afterDigit ⟨pos, ds ++ (t.fractionChars ++ (t.exponentChars ++ r))⟩
            (formOf t) ⟨((pos.past ds).past t.fractionChars).past t.exponentChars, r⟩ :=
          Runs.bind (runs_digits hds (not_digit_rest hr.1) pos) (runs_afterWhole h hr _)
        rw [← Position.past_append, ← Position.past_append, ← List.append_assoc,
          ← List.append_assoc, List.append_assoc ds] at hrun
        exact hrun

theorem runs_checkAfterNumber {c : Cursor} (h : EndsWord c.rest) :
    Runs checkAfterNumber c () c := by
  refine Runs.bind (runs_peek? _) (Runs.ite_neg ?_ rfl)
  rcases hr : c.rest with _ | ⟨d, r⟩
  · simp
  · obtain ⟨hpart, hslash⟩ := h d (by rw [hr]; rfl)
    have hstart : isIdStart d = false := by
      by_contra hs
      rw [Bool.not_eq_false] at hs
      rw [isIdPart_of_isIdStart hs] at hpart
      cases hpart
    have hdigit : d.isDigit = false := by
      by_contra hs
      rw [Bool.not_eq_false] at hs
      rw [isIdPart_of_isDigit hs] at hpart
      cases hpart
    simp [hstart, hdigit, hslash]

theorem filter_chars (h : t.WellFormed) : t.chars.filter (· != '_') = t.chars := by
  have hdigit : ∀ c : Char, c.isDigit = true → (c != '_') = true := by
    intro c hc
    rw [bne_iff_ne]
    rintro rfl
    cases hc
  rw [List.filter_eq_self]
  intro c hc
  unfold chars fractionChars exponentChars at hc
  rcases List.mem_append.mp hc with hc | hc
  · exact hdigit c (h.whole c hc)
  rcases List.mem_append.mp hc with hc | hc
  · split at hc
    · next ds hds =>
      rcases List.mem_cons.mp hc with rfl | hc
      · decide
      · exact hdigit c (h.fraction ds hds c hc)
    · cases hc
  · split at hc
    · next sign ds hds =>
      obtain ⟨hsign, -, hdigits⟩ := h.exponent _ hds
      rcases List.mem_cons.mp hc with rfl | hc
      · decide
      rcases List.mem_append.mp hc with hc | hc
      · rcases hsign with hsign | hsign | hsign <;> simp_all
      · exact hdigit c (hdigits c hc)
    · cases hc

theorem runs_endNumber {start c : Cursor} {form : Numeral} (hend : EndsWord c.rest)
    (htext : start.textTo c = String.ofList cs) (hvalue : numeralValue? form cs = some x) :
    Runs (endNumber start form) c (.number x) c := by
  refine Runs.bind (runs_peek? _) (Runs.ite_neg ?_ (Runs.bind (runs_checkAfterNumber hend) ?_))
  · rw [Bool.and_eq_true]
    rintro ⟨-, hn⟩
    have hpart := (hend 'n' (by simpa using hn)).1
    cases hpart
  · show Runs (match numeralValue? form (start.textTo c).toList with
      | some value => Pure.pure (Lexeme.number value)
      | none => fail .badNumber start.pos) c _ c
    rw [htext, String.toList_ofList, hvalue]
    rfl

theorem runs_number_decimal (h : t.WellFormed) (hr : EndsNumeral t.chars r)
    (hchars : t.chars = c :: cs) (strict : Bool) (start : Cursor)
    (hstart : start.rest = t.chars ++ r) (pos : Position)
    (hpos : pos.past cs = start.pos.past t.chars) :
    Runs (number strict c start) ⟨pos, cs ++ r⟩ (.number t.value) ⟨pos.past cs, r⟩ := by
  have htext : start.textTo ⟨pos.past cs, r⟩ = String.ofList t.chars :=
    Cursor.textTo_of_append hstart hpos
  have hvalue : numeralValue? (formOf t) t.chars = some t.value := by
    have hread : readDecimal? (t.chars.filter (· != '_')) = some t.value := by
      rw [filter_chars h, readDecimal?_chars h]
    unfold formOf
    split <;> exact hread
  rw [number_eq]
  exact Runs.bind (runs_form h hr hchars strict start pos) (runs_endNumber hr.1 htext hvalue)

/-! ## Hexadecimal digits -/

theorem digitValue?_digitChar {d : Nat} (h : d < 16) : digitValue? 16 d.digitChar = some d := by
  have hall : ∀ d < 16, digitValue? 16 d.digitChar = some d := by decide
  exact hall d h

theorem exists_digits_toDigits (n : Nat) : ∃ ds,
    (Nat.toDigits 16 n).mapM (digitValue? 16) = some ds ∧ radixValue 16 0 ds = n := by
  induction n using Nat.strongRecOn with
  | ind n ih =>
    by_cases hlt : n < 16
    · refine ⟨[n], ?_, by simp [radixValue]⟩
      rw [Nat.toDigits_of_lt_base hlt, List.mapM_cons, digitValue?_digitChar hlt]
      rfl
    · obtain ⟨ds, hds, hvalue⟩ := ih (n / 16) (by omega)
      refine ⟨ds ++ [n % 16], ?_, ?_⟩
      · rw [Nat.toDigits_of_base_le (by decide) (by omega), List.mapM_append, hds, List.mapM_cons,
          digitValue?_digitChar (Nat.mod_lt n (by decide))]
        rfl
      · have hfold : radixValue 16 0 (ds ++ [n % 16]) = radixValue 16 0 ds * 16 + n % 16 := by
          simp [radixValue]
        omega

theorem isSome_digitValue?_of_mem (hc : c ∈ Nat.toDigits 16 n) :
    (digitValue? 16 c).isSome = true := by
  induction n using Nat.strongRecOn with
  | ind n ih =>
    by_cases hlt : n < 16
    · rw [Nat.toDigits_of_lt_base hlt, List.mem_singleton] at hc
      rw [hc, digitValue?_digitChar hlt]
      rfl
    · rw [Nat.toDigits_of_base_le (by decide) (by omega), List.mem_append,
        List.mem_singleton] at hc
      rcases hc with hc | hc
      · exact ih (n / 16) (by omega) hc
      · rw [hc, digitValue?_digitChar (Nat.mod_lt n (by decide))]
        rfl

theorem ne_underscore_of_digitValue? (h : (digitValue? 16 c).isSome = true) :
    (c != '_') = true := by
  rw [bne_iff_ne]
  rintro rfl
  cases h

theorem runs_number_hexadecimal (h : n < 2 ^ 53) (hr : EndsWord r) (strict : Bool)
    (start : Cursor) (hstart : start.rest = '0' :: 'x' :: Nat.toDigits 16 n ++ r) (pos : Position)
    (hpos : pos.past ('x' :: Nat.toDigits 16 n)
      = start.pos.past ('0' :: 'x' :: Nat.toDigits 16 n)) :
    Runs (number strict '0' start) ⟨pos, 'x' :: Nat.toDigits 16 n ++ r⟩ (.number (ofNat n))
      ⟨pos.past ('x' :: Nat.toDigits 16 n), r⟩ := by
  have hdigits : ∀ c ∈ Nat.toDigits 16 n,
      ((digitValue? 16 c).isSome || c == '_') = true ∧ isLineEnd c = false := by
    intro c hc
    have hsome := isSome_digitValue?_of_mem hc
    exact ⟨by rw [hsome]; rfl, isLineEnd_of_isIdPart (isIdPart_of_digitValue? hsome)⟩
  have hform : Runs (scanForm strict '0' start) ⟨pos, 'x' :: Nat.toDigits 16 n ++ r⟩ (.marked 16)
      ⟨pos.past ('x' :: Nat.toDigits 16 n), r⟩ := by
    refine Runs.ite_pos rfl (Runs.bind (runs_peek? _) (Runs.ite_pos rfl ?_))
    exact Runs.bind (runs_advance rfl)
      (Runs.bind (runs_skipWhile hdigits (not_digit_of_endsWord hr 16)) rfl)
  have htext : start.textTo ⟨pos.past ('x' :: Nat.toDigits 16 n), r⟩
      = String.ofList ('0' :: 'x' :: Nat.toDigits 16 n) :=
    Cursor.textTo_of_append hstart hpos
  have hfilter : (Nat.toDigits 16 n).filter (· != '_') = Nat.toDigits 16 n := by
    rw [List.filter_eq_self]
    exact fun c hc => ne_underscore_of_digitValue? (isSome_digitValue?_of_mem hc)
  have hvalue : numeralValue? (.marked 16) ('0' :: 'x' :: Nat.toDigits 16 n)
      = some (ofNat n) := by
    obtain ⟨ds, hds, hn⟩ := exists_digits_toDigits n
    have hlength := Nat.length_toDigits_pos (b := 16) (n := n)
    have hread : readRadix? 16 (Nat.toDigits 16 n) = some (ofNat n) := by
      rw [readRadix?_eq (by decide) (by decide) hds (by rw [hn]; exact h), hn]
    have hspelled : ('0' :: 'x' :: Nat.toDigits 16 n).filter (· != '_')
        = '0' :: 'x' :: Nat.toDigits 16 n := by
      rw [List.filter_cons_of_pos (by decide), List.filter_cons_of_pos (by decide), hfilter]
    unfold numeralValue?
    rw [hspelled]
    show (if (Nat.toDigits 16 n).length + 1 + 1 ≤ 2 then none
      else readRadix? 16 (Nat.toDigits 16 n)) = _
    rw [if_neg (by omega), hread]
  rw [number_eq]
  exact Runs.bind hform (runs_endNumber hr htext hvalue)

/-! ## Numerals in general -/

/-- The texts that are scanned as a number: a numeral for it, and one of digits alone with a
point after it. -/
inductive NumberText (x : Float) : List Char → Prop where
  | plain {cs : List Char} (h : IsNumeral x cs) : NumberText x cs
  | pointed {cs : List Char} (h : IsNumeral x cs) (hdigits : ∀ c ∈ cs, c.isDigit = true) :
    NumberText x (cs ++ ['.'])

/-- A numeral of digits alone has neither fraction nor exponent. -/
theorem IsNumeral.eq_whole (h : IsNumeral x cs) (hdigits : ∀ c ∈ cs, c.isDigit = true) :
    ∃ t : DecimalText, t.WellFormed ∧ t.value = x ∧
      t.whole = cs ∧ t.fraction = none ∧ t.exponent = none := by
  cases h with
  | hexadecimal _ _ => cases hdigits 'x' (by simp)
  | @decimal t ht _ hx =>
    have hfraction : t.fraction = none := by
      cases hf : t.fraction with
      | none => rfl
      | some ds => cases hdigits '.' (by simp [chars, fractionChars, hf])
    have hexponent : t.exponent = none := by
      rcases he : t.exponent with _ | ⟨sign, es⟩
      · rfl
      · cases hdigits 'e' (by simp [chars, exponentChars, he])
    exact ⟨t, ht, hx, (chars_eq_whole hfraction hexponent).symm, hfraction, hexponent⟩

theorem runs_number (h : NumberText x (c :: cs)) (hr : EndsNumeral (c :: cs) r) (strict : Bool)
    (start : Cursor) (hstart : start.rest = c :: cs ++ r) (pos : Position)
    (hpos : pos.past cs = start.pos.past (c :: cs)) :
    Runs (number strict c start) ⟨pos, cs ++ r⟩ (.number x) ⟨pos.past cs, r⟩ := by
  generalize hall : c :: cs = all at h
  cases h with
  | plain h =>
    cases h with
    | decimal h _ hx =>
      rw [hall] at hr hstart hpos
      rw [← hx]
      exact runs_number_decimal h hr hall.symm strict start hstart pos hpos
    | hexadecimal h hx =>
      cases hall
      rw [← hx]
      exact runs_number_hexadecimal h hr.1 strict start hstart pos hpos
  | pointed h hdigits =>
    -- The point is that of an empty fraction.
    obtain ⟨t, ht, hx, rfl, hfraction, hexponent⟩ := IsNumeral.eq_whole h hdigits
    have hpointed : DecimalText.WellFormed ⟨t.whole, some [], none⟩ := by
      refine ⟨ht.whole, ?_, nofun, ?_, ht.leading⟩
      · rintro ds hds c hc
        cases hds
        cases hc
      · rcases ht.digits with hne | ⟨d, ds, hsome⟩
        · exact .inl hne
        · rw [hfraction] at hsome
          cases hsome
    have hvalue : DecimalText.value ⟨t.whole, some [], none⟩ = x := by
      rw [← hx]
      simp [DecimalText.value, DecimalText.digits, DecimalText.power, hfraction, hexponent]
    have hchars : DecimalText.chars ⟨t.whole, some [], none⟩ = t.whole ++ ['.'] := rfl
    rw [hall, ← hchars] at hr hstart hpos
    rw [← hvalue]
    exact runs_number_decimal hpointed hr (hchars.trans hall.symm) strict start hstart pos hpos

end Literal

end Laconic
