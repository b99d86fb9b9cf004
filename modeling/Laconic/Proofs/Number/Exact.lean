import Laconic.Proofs.Token.Legible

/-!
# The number a numeral stands for

A printed number is one token, and its text stands for the same rational number as the text that
the language gives the double.
-/

namespace Laconic

open Number

/-- The rational number that a decimal or hexadecimal numeral stands for. -/
def denoted? : List Char → Option ℚ
  | '0' :: 'x' :: cs => (cs.mapM (digitValue? 16)).map fun ds => (radixValue 16 0 ds : ℚ)
  | cs =>
    let (fraction, rest) := DecimalText.splitFraction (cs.dropWhile Char.isDigit)
    (readExponent? rest).map fun exponent =>
      (natOfDigits (cs.takeWhile Char.isDigit ++ fraction) : ℚ)
        * 10 ^ (exponent - fraction.length : Int)

theorem Denotes.denoted? {v : ℚ} {cs : List Char} (h : Denotes v cs) : denoted? cs = some v := by
  cases h with
  | @decimal t h _ hv =>
    obtain ⟨htake, hdrop⟩ := DecimalText.takeWhile_append_stop h.whole t.isDigit_head_rest
    -- an `x` is neither a digit nor the start of a fraction or an exponent
    have hdecimal : ∀ cs, t.chars ≠ '0' :: 'x' :: cs := by
      intro cs hcs
      rw [← DecimalText.chars, hcs] at hdrop
      have hsplit := DecimalText.splitFraction_chars h
      rw [← hdrop] at hsplit
      have hexponent := DecimalText.readExponent?_exponentChars h
      rw [← (Prod.mk.inj hsplit).2] at hexponent
      cases hexponent
    unfold Laconic.denoted?
    split
    · next cs hcs => exact absurd hcs (hdecimal cs)
    · rw [DecimalText.chars, htake, hdrop, DecimalText.splitFraction_chars h]
      simp only [DecimalText.readExponent?_exponentChars h]
      rw [← hv]
      rfl
  | @hexadecimal n _ hv =>
    obtain ⟨ds, hds, hvalue⟩ := Literal.exists_digits_toDigits n
    simp only [Laconic.denoted?, hds, Option.map_some, hvalue, hv]

namespace Scanning

/-- The text of a number, and nothing else, is scanned as one token that covers it. -/
theorem tokenize_number {text : String} {x : Float} (h : Literal.NumberText x text.toList) :
    ∃ t, tokenize text = .ok [t] ∧ t.lexeme = .number x
      ∧ t.span = ⟨.first, Position.first.past text.toList, 0⟩ := by
  obtain ⟨c, w, htext, hblank, hhash, hslash⟩ := exists_head_of_spells (.number h)
  have hshebang : shebangLine? (Scanner.ofText text 0).chars = none := by
    show shebangLine? text.toList = none
    rw [htext, shebangLine?]
    rintro rest
    simp [hhash]
  have hcursor : (Scanner.ofText text 0).cursor = ⟨.first, [] ++ c :: (w ++ [])⟩ := by
    rw [List.append_nil, List.nil_append, ← htext]
    rfl
  have hnext := runs_next hshebang hcursor (.inl rfl) hblank
    (fun hc => by rcases hslash hc with h | h <;> cases h)
    (runs_lexeme_number rfl (htext ▸ h) ⟨nofun, nofun⟩ rfl)
  obtain ⟨t, s', hrun, hlexeme, hspan⟩ : ∃ t s', remaining (w.length + 1 + 1)
      (Scanner.ofText text 0) = .ok [t] s' ∧ t.lexeme = .number x
        ∧ t.span = ⟨.first, Position.first.past (c :: w), 0⟩ :=
    ⟨_, _, Runs.bind hnext (Runs.bind (runs_remaining_end w.length rfl hshebang) rfl), rfl, rfl⟩
  refine ⟨t, ?_, hlexeme, htext ▸ hspan⟩
  unfold tokenize
  rw [← String.length_toList, htext, List.length_cons, hrun]

end Scanning

/-- The numeral is no longer than the usual text. -/
theorem length_numeral_le (x : Float) :
    (Spelling.numeral x).toList.length ≤ (Number.text x).toList.length := by
  unfold Spelling.numeral
  rw [String.toList_ofList]
  rcases firstShortest_cases (Number.text x).toList _ with heq | ⟨-, hlt⟩
  · rw [heq]
  · exact hlt.le

/-- A finite number from zero on is printed as one number token, which stands for the same
rational number as the number's own text and is no longer. -/
theorem numeral_exact {x : Float} (hf : x.isFinite = true) (hx : 0 ≤ x) :
    (∃ t, tokenize (Spelling.numeral x) = .ok [t]
      ∧ t.lexeme = .number (if x == 0 then 0 else x)
      ∧ t.span = ⟨.first, Position.first.past (Spelling.numeral x).toList, 0⟩)
    ∧ (∃ v, denoted? (Spelling.numeral x).toList = some v
      ∧ denoted? (Number.text x).toList = some v)
    ∧ (Spelling.numeral x).length ≤ (Number.text x).length := by
  rw [← String.length_toList, ← String.length_toList]
  refine ⟨?_, ?_, length_numeral_le x⟩
  · split
    · next hzero =>
      have hnumeral := exists_numeral (x := 0) rfl rfl
      rw [(text_of_zero rfl rfl).2, ← (text_of_zero hf hzero).2] at hnumeral
      exact Scanning.tokenize_number (.plain hnumeral)
    · next hzero =>
      have hs := (signBit_of_nonneg hx).resolve_right hzero
      exact Scanning.tokenize_number (.plain (exists_numeral hf hs))
  · by_cases hzero : (x == 0) = true
    · obtain ⟨htext, hnumeral⟩ := text_of_zero hf hzero
      rw [htext, hnumeral]
      exact ⟨_, rfl, rfl⟩
    · have hs := (signBit_of_nonneg hx).resolve_right hzero
      have hm : 0 < (toBinary x).mantissa := by
        apply Nat.pos_of_ne_zero
        intro hm
        rw [eq_zero_of_mantissa hf hs hm] at hzero
        exact hzero rfl
      obtain ⟨htext, hnumeral⟩ := denotes_numeral hf hs hm
      exact ⟨_, hnumeral.denoted?, htext.denoted?⟩

/-- A thousand is printed as `1e3`. -/
theorem numeral_exact_thousand : (1000 : Float).isFinite = true ∧ (0 : Float) ≤ 1000 ∧
    (∃ t, tokenize (Spelling.numeral 1000) = .ok [t]
      ∧ t.lexeme = .number (if (1000 : Float) == 0 then 0 else 1000)
      ∧ t.span = ⟨.first, Position.first.past (Spelling.numeral 1000).toList, 0⟩)
    ∧ (∃ v, denoted? (Spelling.numeral 1000).toList = some v
      ∧ denoted? (Number.text 1000).toList = some v)
    ∧ (Spelling.numeral 1000).length ≤ (Number.text 1000).length :=
  ⟨by decide, by decide, numeral_exact (by decide) (by decide)⟩

end Laconic
