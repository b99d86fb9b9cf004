import Laconic.Output.Spelling
import Laconic.Token.Literal
import Laconic.Proofs.Number.Shortest
import Laconic.Proofs.Number.Whole

/-!
# Numerals that read back

A decimal numeral is whole digits, perhaps a point with more digits and perhaps an
exponent.  Which of its spellings a number is written with depends on their lengths;
every one of them stands for a number that rounds to the same double.
-/

namespace Laconic

open Number Spelling

variable {d : Decimal} {ds : List Char} {n : Nat} {x : Float} {c : Char} {t : DecimalText}
  {cs rest : List Char}

/-- A decimal numeral by its parts. -/
structure DecimalText where
  whole : List Char
  /-- The digits after the point, if there is one. -/
  fraction : Option (List Char)
  /-- The sign and the digits of the exponent, if there is one. -/
  exponent : Option (List Char × List Char)

namespace DecimalText

variable {cs : List Char}

def fractionChars (t : DecimalText) : List Char :=
  match t.fraction with
  | some ds => '.' :: ds
  | none => []

def exponentChars (t : DecimalText) : List Char :=
  match t.exponent with
  | some (sign, ds) => 'e' :: (sign ++ ds)
  | none => []

def chars (t : DecimalText) : List Char := t.whole ++ (t.fractionChars ++ t.exponentChars)

def digits (t : DecimalText) : List Char := t.whole ++ t.fraction.getD []

/-- The value of the exponent. -/
def power (t : DecimalText) : Int :=
  match t.exponent with
  | some (sign, ds) => if sign = ['-'] then -(natOfDigits ds : Int) else natOfDigits ds
  | none => 0

/-- The number that a numeral stands for. -/
def rational (t : DecimalText) : ℚ :=
  natOfDigits t.digits * 10 ^ (t.power - (t.fraction.getD []).length)

/-- The double that a numeral is read as. -/
def value (t : DecimalText) : Float :=
  ofDecimal (natOfDigits t.digits) (t.power - (t.fraction.getD []).length)

/-- The parts are digits and signs where they should be. -/
structure WellFormed (t : DecimalText) : Prop where
  whole : ∀ c ∈ t.whole, c.isDigit = true
  fraction : ∀ ds ∈ t.fraction, ∀ c ∈ ds, c.isDigit = true
  exponent : ∀ e ∈ t.exponent,
    (e.1 = [] ∨ e.1 = ['+'] ∨ e.1 = ['-']) ∧ e.2 ≠ [] ∧ ∀ c ∈ e.2, c.isDigit = true
  digits : t.whole ≠ [] ∨ ∃ c ds, t.fraction = some (c :: ds)
  /-- A leading zero stands alone. -/
  leading : t.whole = ['0'] ∨ t.whole.head? ≠ some '0'

/-! ## Reading -/

theorem takeWhile_append_stop {p : Char → Bool} {w r : List Char} (hw : ∀ c ∈ w, p c = true)
    (hr : ∀ c ∈ r.head?, p c = false) : (w ++ r).takeWhile p = w ∧ (w ++ r).dropWhile p = r := by
  rw [List.takeWhile_append_of_pos hw, List.dropWhile_append_of_pos hw]
  cases r with
  | nil => simp
  | cons c r =>
    have hc : p c = false := hr c rfl
    simp [hc]

theorem takeSign_of_ne (h : ∀ c ∈ cs.head?, c ≠ '-' ∧ c ≠ '+') : takeSign cs = (false, cs) := by
  unfold takeSign
  split
  · next rest => exact absurd rfl (h '-' rfl).1
  · next rest => exact absurd rfl (h '+' rfl).2
  · rfl

theorem ne_sign_of_isDigit {c : Char} (h : c.isDigit = true) : c ≠ '-' ∧ c ≠ '+' := by
  constructor <;> rintro rfl <;> cases h

theorem isDigit_head_exponentChars (t : DecimalText) :
    ∀ c ∈ t.exponentChars.head?, c.isDigit = false := by
  unfold exponentChars
  split
  · intro c hc
    cases hc
    rfl
  · intro c hc
    cases hc

variable {t : DecimalText}

theorem readExponent?_exponentChars (h : t.WellFormed) :
    readExponent? t.exponentChars = some t.power := by
  unfold exponentChars power
  split
  · next sign ds he =>
    obtain ⟨hsign, hne, hds⟩ := h.exponent _ he
    have hall : ds.all Char.isDigit = true := List.all_eq_true.mpr hds
    have hempty : ds.isEmpty = false := List.isEmpty_eq_false_iff.mpr hne
    have htake : takeSign (sign ++ ds) = (decide (sign = ['-']), ds) := by
      rcases hsign with rfl | rfl | rfl
      · apply takeSign_of_ne
        intro c hc
        exact ne_sign_of_isDigit (hds c (List.mem_of_mem_head? hc))
      · rfl
      · rfl
    simp only [readExponent?, htake, hempty, hall]
    simp
  · rfl

def splitFraction : List Char → List Char × List Char
  | '.' :: rest => (rest.takeWhile Char.isDigit, rest.dropWhile Char.isDigit)
  | rest => ([], rest)

theorem readDecimal?_of_takeSign (h : takeSign cs = (false, cs)) :
    readDecimal? cs =
      let (fraction, rest) := splitFraction (cs.dropWhile Char.isDigit)
      if (cs.takeWhile Char.isDigit).isEmpty && fraction.isEmpty then none
      else (readExponent? rest).map fun exponent =>
        ofDecimal (natOfDigits (cs.takeWhile Char.isDigit ++ fraction))
          (exponent - fraction.length) := by
  unfold readDecimal?
  rw [h]
  rfl

theorem splitFraction_chars (h : t.WellFormed) :
    splitFraction (t.fractionChars ++ t.exponentChars) = (t.fraction.getD [], t.exponentChars) := by
  unfold fractionChars
  split
  · next ds hf =>
    obtain ⟨htake, hdrop⟩ :=
      takeWhile_append_stop (h.fraction ds hf) (isDigit_head_exponentChars t)
    rw [List.cons_append, splitFraction, htake, hdrop, hf]
    rfl
  · next hf =>
    rw [hf, List.nil_append]
    unfold exponentChars
    split <;> rfl

theorem isDigit_head_rest (t : DecimalText) :
    ∀ c ∈ (t.fractionChars ++ t.exponentChars).head?, c.isDigit = false := by
  intro c hc
  unfold fractionChars at hc
  split at hc
  · cases hc
    rfl
  · exact isDigit_head_exponentChars t c hc

theorem takeSign_chars (h : t.WellFormed) : takeSign t.chars = (false, t.chars) := by
  apply takeSign_of_ne
  intro c hc
  rcases hw : t.whole with _ | ⟨d, ds⟩
  · obtain ⟨d, ds, hf⟩ := h.digits.resolve_left (by simp [hw])
    simp [chars, hw, fractionChars, hf] at hc
    subst hc
    decide
  · simp only [chars, hw, List.cons_append, List.head?_cons, Option.mem_some_iff] at hc
    subst hc
    exact ne_sign_of_isDigit (h.whole _ (by simp [hw]))

theorem readDecimal?_chars (h : t.WellFormed) : readDecimal? t.chars = some t.value := by
  obtain ⟨htake, hdrop⟩ := takeWhile_append_stop h.whole (isDigit_head_rest t)
  have hsome : ¬(t.whole.isEmpty && (t.fraction.getD []).isEmpty) = true := by
    rcases h.digits with hwhole | ⟨c, ds, hds⟩
    · simp [hwhole]
    · simp [hds]
  rw [readDecimal?_of_takeSign (takeSign_chars h), chars, htake, hdrop, splitFraction_chars h]
  simp only [hsome, readExponent?_exponentChars h]
  rfl

theorem value_eq_of_roundsTo (hf : x.isFinite = true) (hs : signBit x = false)
    (hx : 0 < (toBinary x).mantissa)
    (hr : RoundsTo (toBinary x).mantissa (toBinary x).exponent t.rational) : t.value = x := by
  have hrep := representable_toBinary hf hs
  have hpos : 0 < natOfDigits t.digits := by
    by_contra hzero
    have hrational : t.rational = 0 := by
      rw [rational, show natOfDigits t.digits = 0 by omega]
      norm_num
    exact absurd (hr.pos hrep hx) (by rw [hrational]; exact lt_irrefl 0)
  exact (ofDecimal_eq_double hpos hx hrep hr).trans (double_toBinary hf hs)

end DecimalText

/-! ## Digits -/

theorem natOfDigits_append (a b : List Char) :
    natOfDigits (a ++ b) = Nat.ofDigitChars 10 b (natOfDigits a) := Nat.ofDigitChars_append 0

theorem natOfDigits_append_zeros (ds : List Char) (k : Nat) :
    natOfDigits (ds ++ List.replicate k '0') = natOfDigits ds * 10 ^ k := by
  rw [natOfDigits_append, Nat.ofDigitChars_replicate_zero, Nat.mul_comm]

theorem natOfDigits_zeros_append (k : Nat) (ds : List Char) :
    natOfDigits (List.replicate k '0' ++ ds) = natOfDigits ds := by
  have hzeros : natOfDigits (List.replicate k '0') = 0 := by
    show Nat.ofDigitChars 10 (List.replicate k '0') 0 = 0
    rw [Nat.ofDigitChars_replicate_zero, Nat.mul_zero]
  rw [natOfDigits_append, hzeros]
  rfl

theorem natOfDigits_toDigits (n : Nat) : natOfDigits (Nat.toDigits 10 n) = n :=
  Nat.ofDigitChars_ten_toDigits

theorem isDigit_of_mem_toDigits (h : c ∈ Nat.toDigits 10 n) :
    c.isDigit = true := Nat.isDigit_of_mem_toDigits (by decide) (by decide) h

theorem head?_toDigits_ne (hn : 0 < n) : (Nat.toDigits 10 n).head? ≠ some '0' := by
  induction n using Nat.strongRecOn with
  | ind n ih =>
    by_cases hlt : n < 10
    · have hchar : ∀ n < 10, 0 < n → [n.digitChar].head? ≠ some '0' := by decide
      rw [Nat.toDigits_of_lt_base hlt]
      exact hchar n hlt hn
    · rw [Nat.toDigits_of_base_le (by decide) (by omega),
        List.head?_append_of_ne_nil _ Nat.toDigits_ne_nil]
      exact ih (n / 10) (by omega) (by omega)

/-- Digits that do not start with a zero. -/
structure IsDigits (ds : List Char) : Prop where
  digits : ∀ c ∈ ds, c.isDigit = true
  ne_nil : ds ≠ []
  head : ds.head? ≠ some '0'

theorem isDigits_toDigits (hn : 0 < n) : IsDigits (Nat.toDigits 10 n) :=
  ⟨fun _ => isDigit_of_mem_toDigits, Nat.toDigits_ne_nil, head?_toDigits_ne hn⟩

/-! ## Forms of numerals -/

namespace DecimalText

def wholeForm (ds : List Char) (zeros : Nat) : DecimalText :=
  ⟨ds ++ List.replicate zeros '0', none, none⟩

def pointForm (ds : List Char) (point : Nat) : DecimalText :=
  ⟨ds.take point, some (ds.drop point), none⟩

/-- Digits after a point and zeros. -/
def smallForm (whole ds : List Char) (zeros : Nat) : DecimalText :=
  ⟨whole, some (List.replicate zeros '0' ++ ds), none⟩

/-- Digits with a point after the first one if there are more, and an exponent. -/
def scientificForm (ds sign es : List Char) : DecimalText :=
  ⟨ds.take 1, if (ds.drop 1).isEmpty then none else some (ds.drop 1), some (sign, es)⟩

def exponentForm (ds sign es : List Char) : DecimalText := ⟨ds, none, some (sign, es)⟩

variable {ds sign es : List Char}

theorem wholeForm_spec (h : IsDigits ds) (zeros : Nat) : (wholeForm ds zeros).WellFormed
    ∧ (wholeForm ds zeros).rational = natOfDigits ds * 10 ^ (zeros : Int) := by
  refine ⟨⟨?_, nofun, nofun, .inl ?_, .inr ?_⟩, ?_⟩
  · intro c hc
    rcases List.mem_append.mp hc with hc | hc
    · exact h.digits c hc
    · rw [List.eq_of_mem_replicate hc]
      rfl
  · exact List.append_ne_nil_of_left_ne_nil h.ne_nil _
  · show (ds ++ _).head? ≠ _
    rw [List.head?_append_of_ne_nil _ h.ne_nil]
    exact h.head
  · simp [rational, digits, power, wholeForm, natOfDigits_append_zeros]

theorem pointForm_spec (h : IsDigits ds) {point : Nat} (hpos : 0 < point)
    (hlt : point < ds.length) : (pointForm ds point).WellFormed
    ∧ (pointForm ds point).rational = natOfDigits ds * 10 ^ ((point : Int) - ds.length) := by
  refine ⟨⟨?_, ?_, nofun, .inl ?_, .inr ?_⟩, ?_⟩
  · exact fun c hc => h.digits c (List.mem_of_mem_take hc)
  · rintro fs hfs c hc
    cases hfs
    exact h.digits c (List.mem_of_mem_drop hc)
  · intro hnil
    have hlen := congrArg List.length hnil
    simp only [pointForm, List.length_take, List.length_nil] at hlen
    omega
  · show (ds.take point).head? ≠ _
    rw [List.head?_take, if_neg (by omega)]
    exact h.head
  · simp only [rational, digits, power, pointForm, Option.getD_some, List.take_append_drop,
      List.length_drop]
    congr 2
    omega

theorem smallForm_spec (h : IsDigits ds) {whole : List Char} (hwhole : whole = [] ∨ whole = ['0'])
    (zeros : Nat) : (smallForm whole ds zeros).WellFormed
    ∧ (smallForm whole ds zeros).rational
      = natOfDigits ds * 10 ^ (-(zeros : Int) - ds.length) := by
  have hfraction : ∀ c ∈ List.replicate zeros '0' ++ ds, c.isDigit = true := by
    intro c hc
    rcases List.mem_append.mp hc with hc | hc
    · rw [List.eq_of_mem_replicate hc]
      rfl
    · exact h.digits c hc
  have hdigits : natOfDigits (whole ++ (List.replicate zeros '0' ++ ds)) = natOfDigits ds := by
    rcases hwhole with rfl | rfl
    · exact natOfDigits_zeros_append zeros ds
    · exact natOfDigits_zeros_append (zeros + 1) ds
  refine ⟨⟨?_, ?_, nofun, .inr ?_, ?_⟩, ?_⟩
  · rcases hwhole with rfl | rfl
    · exact nofun
    · intro c hc
      rw [List.mem_singleton.mp hc]
      rfl
  · rintro fs hfs c hc
    cases hfs
    exact hfraction c hc
  · have hne : List.replicate zeros '0' ++ ds ≠ [] :=
      List.append_ne_nil_of_right_ne_nil _ h.ne_nil
    obtain ⟨c, cs, heq⟩ := List.exists_cons_of_ne_nil hne
    exact ⟨c, cs, congrArg some heq⟩
  · rcases hwhole with rfl | rfl
    · exact .inr nofun
    · exact .inl rfl
  · simp only [rational, digits, power, smallForm, Option.getD_some, hdigits, List.length_append,
      List.length_replicate]
    congr 2
    omega

structure IsExponent (sign es : List Char) : Prop where
  sign : sign = [] ∨ sign = ['+'] ∨ sign = ['-']
  digits : ∀ c ∈ es, c.isDigit = true
  ne_nil : es ≠ []

theorem scientificForm_spec (h : IsDigits ds) (he : IsExponent sign es) :
    (scientificForm ds sign es).WellFormed
      ∧ (scientificForm ds sign es).rational = natOfDigits ds
        * 10 ^ ((if sign = ['-'] then -(natOfDigits es : Int) else natOfDigits es)
          + 1 - ds.length) := by
  obtain ⟨c, cs, rfl⟩ := List.exists_cons_of_ne_nil h.ne_nil
  have hfraction : (scientificForm (c :: cs) sign es).fraction.getD [] = cs := by
    show (if cs.isEmpty then none else some cs : Option _).getD [] = cs
    cases cs <;> rfl
  refine ⟨⟨?_, ?_, ?_, .inl nofun, .inr ?_⟩, ?_⟩
  · intro d hd
    exact h.digits d (List.mem_of_mem_take hd)
  · intro fs hfs d hd
    have : fs = cs := by
      rw [← hfraction, Option.mem_def.mp hfs]
      rfl
    subst this
    exact h.digits d (List.mem_cons_of_mem _ hd)
  · rintro e hexp
    cases hexp
    exact ⟨he.sign, he.ne_nil, he.digits⟩
  · exact h.head
  · simp only [rational, digits, power, hfraction]
    congr 2
    simp only [scientificForm, List.length_cons]
    omega

theorem exponentForm_spec (h : IsDigits ds) (he : IsExponent sign es) :
    (exponentForm ds sign es).WellFormed
      ∧ (exponentForm ds sign es).rational = natOfDigits ds
        * 10 ^ (if sign = ['-'] then -(natOfDigits es : Int) else natOfDigits es) := by
  refine ⟨⟨h.digits, nofun, ?_, .inl h.ne_nil, .inr h.head⟩, ?_⟩
  · rintro e hexp
    cases hexp
    exact ⟨he.sign, he.ne_nil, he.digits⟩
  · simp [rational, digits, power, exponentForm]

end DecimalText

open DecimalText

/-! ## The text of a shortest decimal -/

def Number.Decimal.parts (d : Decimal) : DecimalText :=
  let ds := Nat.toDigits 10 d.digits
  if (ds.length : Int) ≤ d.point && d.point ≤ textFormat.maxPoint then
    wholeForm ds (d.point - ds.length).toNat
  else if 0 < d.point && d.point ≤ textFormat.maxPoint then pointForm ds d.point.toNat
  else if textFormat.minPoint < d.point && d.point ≤ 0 then smallForm ['0'] ds (-d.point).toNat
  else
    scientificForm ds (if 0 ≤ d.point - 1 then ['+'] else ['-'])
      (Nat.toDigits 10 (d.point - 1).natAbs)

theorem toList_decimalText (d : Decimal) : (decimalText d).toList = d.parts.chars := by
  unfold decimalText Number.Decimal.parts
  simp only [zeros]
  by_cases h₁ : ((Nat.toDigits 10 d.digits).length ≤ d.point
      && d.point ≤ textFormat.maxPoint : Bool) = true
  · rw [if_pos h₁, if_pos h₁]
    simp [chars, fractionChars, exponentChars, wholeForm]
  rw [if_neg h₁, if_neg h₁]
  by_cases h₂ : (0 < d.point && d.point ≤ textFormat.maxPoint : Bool) = true
  · rw [if_pos h₂, if_pos h₂]
    simp [chars, fractionChars, exponentChars, pointForm]
  rw [if_neg h₂, if_neg h₂]
  by_cases h₃ : (textFormat.minPoint < d.point && d.point ≤ 0 : Bool) = true
  · rw [if_pos h₃, if_pos h₃]
    simp [chars, fractionChars, exponentChars, smallForm]
  rw [if_neg h₃, if_neg h₃]
  by_cases hrest : ((Nat.toDigits 10 d.digits).drop 1).isEmpty = true <;>
    by_cases hsign : 0 ≤ d.point - 1 <;>
    simp only [chars, fractionChars, exponentChars, scientificForm, hrest, hsign, if_true,
      if_false, Bool.false_eq_true] <;>
    simp [Nat.toList_repr]

theorem Number.Decimal.parts_spec (hd : 0 < d.digits) :
    d.parts.WellFormed ∧ d.parts.rational = d.value := by
  have hds := isDigits_toDigits hd
  have hnat := natOfDigits_toDigits d.digits
  have hexp := natOfDigits_toDigits (d.point - 1).natAbs
  unfold Number.Decimal.parts Number.Decimal.value digitCount
  generalize Nat.toDigits 10 d.digits = ds at *
  by_cases h₁ : ((ds.length : Int) ≤ d.point && d.point ≤ textFormat.maxPoint : Bool) = true
  · rw [if_pos h₁]
    simp only [Bool.and_eq_true, decide_eq_true_eq] at h₁
    obtain ⟨hform, hvalue⟩ := wholeForm_spec hds (d.point - ds.length).toNat
    refine ⟨hform, hvalue.trans ?_⟩
    rw [hnat, show ((d.point - ds.length).toNat : Int) = d.point - ds.length by omega]
  rw [if_neg h₁]
  by_cases h₂ : (0 < d.point && d.point ≤ textFormat.maxPoint : Bool) = true
  · rw [if_pos h₂]
    simp only [Bool.and_eq_true, decide_eq_true_eq] at h₁ h₂
    have hpos : 0 < d.point.toNat := by omega
    have hlt : d.point.toNat < ds.length := by omega
    obtain ⟨hform, hvalue⟩ := pointForm_spec hds hpos hlt
    refine ⟨hform, hvalue.trans ?_⟩
    rw [hnat, show (d.point.toNat : Int) = d.point by omega]
  rw [if_neg h₂]
  by_cases h₃ : (textFormat.minPoint < d.point && d.point ≤ 0 : Bool) = true
  · rw [if_pos h₃]
    simp only [Bool.and_eq_true, decide_eq_true_eq] at h₃
    obtain ⟨hform, hvalue⟩ := smallForm_spec hds (.inr rfl) (-d.point).toNat
    refine ⟨hform, hvalue.trans ?_⟩
    rw [hnat, show -((-d.point).toNat : Int) = d.point by omega]
  rw [if_neg h₃]
  have hexponent : IsExponent (if 0 ≤ d.point - 1 then ['+'] else ['-'])
      (Nat.toDigits 10 (d.point - 1).natAbs) := by
    refine ⟨?_, fun _ => isDigit_of_mem_toDigits, Nat.toDigits_ne_nil⟩
    split
    · exact .inr (.inl rfl)
    · exact .inr (.inr rfl)
  obtain ⟨hform, hvalue⟩ := scientificForm_spec hds hexponent
  refine ⟨hform, hvalue.trans ?_⟩
  congr 2
  by_cases hsign : 0 ≤ d.point - 1
  · rw [if_pos hsign, if_neg (by decide)]
    omega
  · rw [if_neg hsign, if_pos rfl]
    omega

theorem DecimalText.smallForm_fraction {whole : List Char} (h : IsDigits ds) (zeros : Nat) :
    (smallForm whole ds zeros).fraction ≠ some [] := by
  intro heq
  have hnil : List.replicate zeros '0' ++ ds = [] := Option.some.inj heq
  exact h.ne_nil (List.append_eq_nil_iff.mp hnil).2

theorem Number.Decimal.parts_fraction (hd : 0 < d.digits) : d.parts.fraction ≠ some [] := by
  have hds := isDigits_toDigits hd
  unfold Number.Decimal.parts
  simp only
  generalize Nat.toDigits 10 d.digits = ds at *
  split
  · exact nofun
  split
  · next h₁ h₂ =>
    simp only [Bool.and_eq_true, decide_eq_true_eq] at h₁ h₂
    intro heq
    have hnil : ds.drop d.point.toNat = [] := Option.some.inj heq
    rw [List.drop_eq_nil_iff] at hnil
    omega
  split
  · exact smallForm_fraction hds _
  · unfold scientificForm
    split
    · exact nofun
    · next hrest =>
      intro heq
      exact hrest (by rw [Option.some.inj heq]; rfl)

/-! ## Kinds of doubles -/

theorem isNaN_and_isInf_of_isFinite (hf : x.isFinite = true) :
    x.isNaN = false ∧ x.isInf = false := by
  have hfinite : x.toModel.unpack.isFinite = true := hf
  show x.toModel.unpack.isNaN = false ∧ x.toModel.unpack.isInf = false
  cases h : x.toModel.unpack with
  | infinity sign | notANumber => rw [h] at hfinite; cases hfinite
  | zero sign | finite sign mantissa exponent hpos => exact ⟨rfl, rfl⟩

theorem unpack_of_finite (hf : x.isFinite = true) (hs : signBit x = false)
    (hx : 0 < (toBinary x).mantissa) :
    x.toModel.unpack = .finite .positive (toBinary x).mantissa (toBinary x).exponent hx := by
  have h := toModel_unpack_double (representable_toBinary hf hs) hx
  rwa [double_toBinary hf hs] at h

theorem text_of_pos (hf : x.isFinite = true) (hs : signBit x = false)
    (hx : 0 < (toBinary x).mantissa) : Number.text x = decimalText (shortest x) := by
  have hunpack := unpack_of_finite hf hs hx
  obtain ⟨hnan, hinf⟩ := isNaN_and_isInf_of_isFinite hf
  have hzero : (x == 0) = false := by
    show x.toModel.unpack.beq (0 : Float).toModel.unpack = false
    rw [hunpack]
    rfl
  unfold Number.text
  rw [hnan, hzero, hinf, hs]
  simp

/-! ## The spellings to choose from -/

inductive IsNumeral (x : Float) : List Char → Prop where
  | decimal {t : DecimalText} (h : t.WellFormed) (hpoint : t.fraction ≠ some [])
    (hx : t.value = x) : IsNumeral x t.chars
  /-- A whole number with hexadecimal digits. -/
  | hexadecimal {n : Nat} (h : n < 2 ^ 53) (hx : ofNat n = x) :
    IsNumeral x ('0' :: 'x' :: Nat.toDigits 16 n)

theorem firstShortest_cases (best : List Char) (others : List (List Char)) :
    firstShortest best others = best ∨ firstShortest best others ∈ others
      ∧ (firstShortest best others).length < best.length := by
  unfold firstShortest
  induction others generalizing best with
  | nil => exact .inl rfl
  | cons t others ih =>
    rw [List.foldl_cons]
    split
    · next hlt =>
      rcases ih t with heq | ⟨hmem, hshort⟩
      · rw [heq]
        exact .inr ⟨List.mem_cons_self, hlt⟩
      · exact .inr ⟨List.mem_cons_of_mem _ hmem, hshort.trans hlt⟩
    · exact (ih best).imp_right (And.imp_left (List.mem_cons_of_mem _))

/-- A numeral without the sign of a positive exponent. -/
def DecimalText.withoutPlus (t : DecimalText) : DecimalText :=
  { t with exponent := t.exponent.map fun (sign, ds) => (if sign = ['+'] then [] else sign, ds) }

theorem dropPlus_append {w r : List Char} (hw : ∀ c ∈ w, c ≠ 'e') :
    dropPlus (w ++ r) = w ++ dropPlus r := by
  induction w with
  | nil => rfl
  | cons c w ih =>
    have hc : c ≠ 'e' := hw c List.mem_cons_self
    rw [List.cons_append, dropPlus, ih fun d hd => hw d (List.mem_cons_of_mem _ hd)]
    · rfl
    · rintro rest rfl
      exact absurd rfl hc

theorem dropPlus_digits (h : ∀ c ∈ ds, c.isDigit = true) : dropPlus ds = ds := by
  have hne : ∀ c ∈ ds, c ≠ 'e' := by
    rintro c hc rfl
    cases h _ hc
  have happend := dropPlus_append (r := []) hne
  simpa [dropPlus] using happend

theorem ne_e_of_isDigit (h : c.isDigit = true) : c ≠ 'e' := by
  rintro rfl
  cases h

theorem DecimalText.dropPlus_chars (h : t.WellFormed) : dropPlus t.chars = t.withoutPlus.chars := by
  have hwhole : ∀ c ∈ t.whole, c ≠ 'e' := fun c hc => ne_e_of_isDigit (h.whole c hc)
  have hfraction : ∀ c ∈ t.fractionChars, c ≠ 'e' := by
    unfold fractionChars
    split
    · next ds hds =>
      intro c hc
      rcases List.mem_cons.mp hc with rfl | hc
      · decide
      · exact ne_e_of_isDigit (h.fraction ds hds c hc)
    · exact nofun
  have hexponent : dropPlus t.exponentChars = t.withoutPlus.exponentChars := by
    unfold exponentChars withoutPlus
    rcases he : t.exponent with _ | ⟨sign, ds⟩
    · rfl
    · obtain ⟨hsign, -, hds⟩ := h.exponent _ he
      rcases hsign with rfl | rfl | rfl
      · simp only [Option.map_some, List.nil_append]
        rw [dropPlus, dropPlus_digits hds]
        · rfl
        · intro rest _ heq
          have hplus : '+' ∈ ds := by
            rw [heq]
            exact List.mem_cons_self
          cases hds '+' hplus
      · show 'e' :: dropPlus ds = _
        rw [dropPlus_digits hds]
        rfl
      · show 'e' :: dropPlus ('-' :: ds) = _
        have hminus : ∀ c ∈ '-' :: ds, c ≠ 'e' := by
          intro c hc
          rcases List.mem_cons.mp hc with rfl | hc
          · decide
          · exact ne_e_of_isDigit (hds c hc)
        have happend := dropPlus_append (r := []) hminus
        simp only [List.append_nil, dropPlus] at happend
        rw [happend]
        rfl
  rw [chars, dropPlus_append hwhole, dropPlus_append hfraction, hexponent]
  rfl

theorem DecimalText.withoutPlus_spec (h : t.WellFormed) :
    t.withoutPlus.WellFormed ∧ t.withoutPlus.rational = t.rational := by
  have hpower : t.withoutPlus.power = t.power := by
    unfold power withoutPlus
    rcases t.exponent with _ | ⟨sign, ds⟩
    · rfl
    · by_cases hplus : sign = ['+']
      · subst hplus
        rfl
      · simp [hplus]
  refine ⟨⟨h.whole, h.fraction, ?_, h.digits, h.leading⟩, ?_⟩
  · intro e he
    obtain ⟨⟨sign, ds⟩, hold, rfl⟩ := Option.mem_map.mp he
    obtain ⟨hsign, hne, hds⟩ := h.exponent _ hold
    refine ⟨?_, hne, hds⟩
    rcases hsign with rfl | rfl | rfl
    · exact .inl rfl
    · exact .inl rfl
    · exact .inr (.inr rfl)
  · unfold rational
    rw [hpower]
    rfl

theorem Number.Decimal.parts_of_small (hd : 0 < d.digits) (h : d.parts.chars = '0' :: '.' :: rest) :
    ∃ zeros,
      d.parts = smallForm ['0'] (Nat.toDigits 10 d.digits) zeros
        ∧ rest = List.replicate zeros '0' ++ Nat.toDigits 10 d.digits := by
  have hds := isDigits_toDigits hd
  unfold Number.Decimal.parts at h ⊢
  simp only at h ⊢
  generalize Nat.toDigits 10 d.digits = ds at *
  obtain ⟨c, cs, rfl⟩ := List.exists_cons_of_ne_nil hds.ne_nil
  have hc : c ≠ '0' := by
    rintro rfl
    exact hds.head rfl
  split at h
  · simp [wholeForm, chars] at h
    exact absurd h.1 hc
  split at h
  · next hpoint =>
    simp only [Bool.and_eq_true, decide_eq_true_eq] at hpoint
    obtain ⟨k, hk⟩ : ∃ k, d.point.toNat = k + 1 := ⟨d.point.toNat - 1, by omega⟩
    rw [hk] at h
    simp [pointForm, chars] at h
    exact absurd h.1 hc
  split at h
  · next h₁ h₂ h₃ =>
    rw [if_neg h₁, if_neg h₂, if_pos h₃]
    refine ⟨_, rfl, ?_⟩
    simpa [smallForm, chars, fractionChars, exponentChars, eq_comm] using h
  · simp [scientificForm, chars] at h
    exact absurd h.1 hc

theorem dropWhile_zeros (h : IsDigits ds) (zeros : Nat) :
    (List.replicate zeros '0' ++ ds).dropWhile (· == '0') = ds := by
  obtain ⟨c, cs, rfl⟩ := List.exists_cons_of_ne_nil h.ne_nil
  have hc : (c == '0') = false := by
    rw [beq_eq_false_iff_ne]
    rintro rfl
    exact h.head rfl
  simp [hc]

theorem eq_take_append_zeros (ds : List Char) :
    ds = ds.take (ds.length - (ds.reverse.takeWhile (· == '0')).length)
      ++ List.replicate (ds.reverse.takeWhile (· == '0')).length '0' := by
  have hsplit : ds = (ds.reverse.dropWhile (· == '0')).reverse
      ++ (ds.reverse.takeWhile (· == '0')).reverse := by
    rw [← List.reverse_append, List.takeWhile_append_dropWhile, List.reverse_reverse]
  have hzeros : ds.reverse.takeWhile (· == '0')
      = List.replicate (ds.reverse.takeWhile (· == '0')).length '0' := by
    rw [List.eq_replicate_iff]
    refine ⟨rfl, fun c hc => ?_⟩
    simpa using List.all_eq_true.mp List.all_takeWhile c hc
  have hlength : ds.length = (ds.reverse.dropWhile (· == '0')).length
      + (ds.reverse.takeWhile (· == '0')).length := by
    have h := congrArg List.length hsplit
    simpa using h
  have htake : ds.take (ds.length - (ds.reverse.takeWhile (· == '0')).length)
      = (ds.reverse.dropWhile (· == '0')).reverse := by
    rw [hlength, Nat.add_sub_cancel]
    conv_lhs => rw [hsplit]
    exact List.take_left' (by simp)
  rw [htake]
  conv_lhs => rw [hsplit]
  congr 1
  rw [hzeros, List.reverse_replicate, List.length_replicate]

/-- A text is a numeral for a number. -/
inductive Denotes (v : ℚ) : List Char → Prop where
  | decimal {t : DecimalText} (h : t.WellFormed) (hpoint : t.fraction ≠ some [])
    (hv : t.rational = v) : Denotes v t.chars
  | hexadecimal {n : Nat} (h : n < 2 ^ 53) (hv : (n : ℚ) = v) :
    Denotes v ('0' :: 'x' :: Nat.toDigits 16 n)

/-- A numeral for a number that rounds to a double is one for the double. -/
theorem Denotes.isNumeral {v : ℚ} (h : Denotes v cs) (hf : x.isFinite = true)
    (hs : signBit x = false) (hx : 0 < (toBinary x).mantissa)
    (hr : RoundsTo (toBinary x).mantissa (toBinary x).exponent v) : IsNumeral x cs := by
  have hrep := representable_toBinary hf hs
  cases h with
  | decimal h hpoint hv => exact .decimal h hpoint (value_eq_of_roundsTo hf hs hx (hv ▸ hr))
  | @hexadecimal n h hv =>
    subst hv
    have hn : 0 < n := by exact_mod_cast hr.pos hrep hx
    exact .hexadecimal h ((ofNat_eq_of_roundsTo hn hrep hr).trans (double_toBinary hf hs))

theorem denotes_of_fraction (hd : 0 < d.digits) (htext : d.parts.chars = '0' :: '.' :: rest)
    (hcs : cs ∈ fractionSpellings rest) : Denotes d.value cs := by
  obtain ⟨zeros, hparts, rfl⟩ := d.parts_of_small hd htext
  have hds := isDigits_toDigits hd
  have hvalue : d.value = natOfDigits (Nat.toDigits 10 d.digits)
      * 10 ^ (-(zeros : Int) - (Nat.toDigits 10 d.digits).length) := by
    rw [← (d.parts_spec hd).2, hparts, (smallForm_spec hds (.inr rfl) zeros).2]
  have hno : (Nat.toDigits 10 d.digits).contains 'e' = false := by
    rw [List.contains_eq_any_beq, List.any_eq_false]
    intro c hc
    have := ne_e_of_isDigit (hds.digits c hc)
    simpa using this.symm
  rw [fractionSpellings, dropWhile_zeros hds] at hcs
  simp only [hno] at hcs
  rcases List.mem_cons.mp hcs with rfl | hcs
  · obtain ⟨hform, hrational⟩ := smallForm_spec hds (.inl rfl) zeros
    have h := Denotes.decimal hform (smallForm_fraction hds zeros) (hrational.trans hvalue.symm)
    simpa [smallForm, chars, fractionChars, exponentChars] using h
  · have he : IsExponent ['-'] (Nat.toDigits 10
        (List.replicate zeros '0' ++ Nat.toDigits 10 d.digits).length) :=
      ⟨.inr (.inr rfl), fun _ => isDigit_of_mem_toDigits, Nat.toDigits_ne_nil⟩
    obtain ⟨hform, hrational⟩ := exponentForm_spec hds he
    have hpower : (if ['-'] = ['-'] then -(natOfDigits (Nat.toDigits 10
        (List.replicate zeros '0' ++ Nat.toDigits 10 d.digits).length) : Int)
        else natOfDigits (Nat.toDigits 10
          (List.replicate zeros '0' ++ Nat.toDigits 10 d.digits).length))
        = -(zeros : Int) - (Nat.toDigits 10 d.digits).length := by
      rw [if_pos rfl, natOfDigits_toDigits, List.length_append, List.length_replicate]
      push_cast
      ring
    rw [hpower] at hrational
    have h := Denotes.decimal hform nofun (hrational.trans hvalue.symm)
    have heq : cs = Nat.toDigits 10 d.digits ++ ['e', '-'] ++ Nat.toDigits 10
        (List.replicate zeros '0' ++ Nat.toDigits 10 d.digits).length := by simpa using hcs
    rw [heq]
    simpa [exponentForm, chars, fractionChars, exponentChars] using h

theorem denotes_of_whole (hn : 0 < n) (hlt : n < 2 ^ 53) (hcs : cs ∈ wholeSpellings n) :
    Denotes n cs := by
  unfold wholeSpellings at hcs
  rcases List.mem_cons.mp hcs with rfl | hcs
  · exact .hexadecimal hlt rfl
  · split at hcs
    · have hds := isDigits_toDigits hn
      have hsplit := eq_take_append_zeros (Nat.toDigits 10 n)
      generalize ((Nat.toDigits 10 n).reverse.takeWhile (· == '0')).length = zeros at *
      rw [List.mem_singleton] at hcs
      subst hcs
      generalize (Nat.toDigits 10 n).take ((Nat.toDigits 10 n).length - zeros) = front at *
      have hnat : n = natOfDigits front * 10 ^ zeros := by
        rw [← natOfDigits_append_zeros, ← hsplit, natOfDigits_toDigits]
      have hfront : IsDigits front := by
        have hne : front ≠ [] := by
          rintro rfl
          rw [show natOfDigits [] = 0 from rfl, Nat.zero_mul] at hnat
          omega
        refine ⟨?_, hne, ?_⟩
        · intro c hc
          apply hds.digits
          rw [hsplit]
          exact List.mem_append_left _ hc
        · have hhead := hds.head
          rwa [hsplit, List.head?_append_of_ne_nil _ hne] at hhead
      have he : IsExponent [] (Nat.toDigits 10 zeros) :=
        ⟨.inl rfl, fun _ => isDigit_of_mem_toDigits, Nat.toDigits_ne_nil⟩
      obtain ⟨hform, hrational⟩ := exponentForm_spec hfront he
      rw [if_neg (by decide), natOfDigits_toDigits, zpow_natCast] at hrational
      have h := Denotes.decimal (v := n) hform nofun (by rw [hrational, hnat]; push_cast; rfl)
      simpa [exponentForm, chars, fractionChars, exponentChars] using h
    · cases hcs

variable (hf : x.isFinite = true)

include hf

/-- Both spellings denote the shortest decimal. -/
theorem denotes_numeral (hs : signBit x = false) (hx : 0 < (toBinary x).mantissa) :
    Denotes (shortest x).value (Number.text x).toList
      ∧ Denotes (shortest x).value (numeral x).toList := by
  obtain ⟨hpos, -⟩ := shortestDecimal_spec (representable_toBinary hf hs) hx
  have htext : (Number.text x).toList = (shortest x).parts.chars := by
    rw [text_of_pos hf hs hx, toList_decimalText]
  obtain ⟨hform, hrational⟩ := (shortest x).parts_spec hpos
  have hdecimal := Denotes.decimal hform ((shortest x).parts_fraction hpos) hrational
  unfold numeral
  rw [String.toList_ofList, htext]
  refine ⟨hdecimal, ?_⟩
  rcases firstShortest_cases (shortest x).parts.chars _ with heq | ⟨hmem, -⟩
  · rw [heq]
    exact hdecimal
  generalize firstShortest _ _ = cs at hmem ⊢
  rcases List.mem_append.mp hmem with hmem | hmem
  · rcases List.mem_append.mp hmem with hmem | hmem
    · split at hmem
      · next rest hrest => exact denotes_of_fraction hpos hrest hmem
      · cases hmem
    · rw [List.mem_singleton.mp hmem, dropPlus_chars hform]
      obtain ⟨hform', hrational'⟩ := withoutPlus_spec hform
      exact .decimal hform' ((shortest x).parts_fraction hpos) (hrational'.trans hrational)
  · split at hmem
    · next hwhole =>
      simp only [Bool.and_eq_true, decide_eq_true_eq] at hwhole
      obtain ⟨-, hbound, hvalue⟩ := eq_ofNat_of_isWhole hf hs hwhole.1 hwhole.2
      have hn : 0 < (truncate x).toNat := by
        have : (0 : ℚ) < (truncate x).toNat := by
          rw [hvalue]
          have : (0 : ℚ) < (toBinary x).mantissa := by exact_mod_cast hx
          positivity
        exact_mod_cast this
      have hexact : (shortest x).value = (truncate x).toNat := value_shortestDecimal hx
        (exponent_le_zero hf hs hx hwhole.2) hvalue hn hbound
      rw [hexact]
      exact denotes_of_whole hn hbound hmem
    · cases hmem

theorem eq_zero_of_mantissa (hs : signBit x = false) (h : (toBinary x).mantissa = 0) : x = 0 := by
  rw [← double_toBinary hf hs, h, double_zero]

theorem text_of_zero (hzero : (x == 0) = true) :
    (Number.text x).toList = ['0'] ∧ (numeral x).toList = ['0'] := by
  have htext : Number.text x = "0" := by
    unfold Number.text
    rw [(isNaN_and_isInf_of_isFinite hf).1, hzero]
    rfl
  refine ⟨by rw [htext]; rfl, ?_⟩
  unfold numeral
  rw [String.toList_ofList, htext]
  rcases firstShortest_cases "0".toList _ with heq | ⟨hmem, hlt⟩
  · exact heq
  -- no spelling is shorter than one character
  generalize firstShortest _ _ = cs at hmem hlt
  have hnil : cs = [] := by simpa using hlt
  subst hnil
  rcases List.mem_append.mp hmem with hmem | hmem
  · simp [dropPlus] at hmem
  · split at hmem
    · unfold wholeSpellings at hmem
      simp at hmem
    · cases hmem

theorem exists_numeral (hs : signBit x = false) : IsNumeral x (numeral x).toList := by
  by_cases hx : 0 < (toBinary x).mantissa
  · obtain ⟨-, hr⟩ := shortestDecimal_spec (representable_toBinary hf hs) hx
    exact (denotes_numeral hf hs hx).2.isNumeral hf hs hx hr
  · obtain rfl := eq_zero_of_mantissa hf hs (by omega)
    refine .decimal (t := ⟨['0'], none, none⟩) ⟨?_, nofun, nofun, .inl nofun, .inl rfl⟩ nofun rfl
    intro c hc
    rw [List.mem_singleton.mp hc]
    rfl

end Laconic
