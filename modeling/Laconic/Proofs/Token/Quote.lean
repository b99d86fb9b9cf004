import Laconic.Proofs.Token.Number

/-!
# Strings in quotes read back

A string is written in quotes with escapes for what may not stand there, and with
further escapes for what would end a script in an HTML page.  `StandsFor q cs us` says
that the text `cs`, up to the closing quote `q`, stands for the code units `us`; scanning
such a text gives back the units, and those of a string the string.
-/

namespace Laconic

open Spelling

namespace Literal

open Scan

variable {c q : Char} {cs : List Char} {n width : Nat} {l : Char}

/-! ## Escapes -/

/-- What stands after a backslash for some code units, whatever follows and whether the code is
strict or not. -/
def IsEscape (w : List Char) (us : List CodeUnit) : Prop :=
  ∀ (strict : Bool) (pos : Position) (r : List Char),
    Runs (escape strict false) ⟨pos, w ++ r⟩ (some us) ⟨pos.past w, r⟩

/-- Reading hexadecimal digits. -/
theorem runs_hexDigits {ds : List Nat} (h : cs.mapM (Number.digitValue? 16) = some ds) (n : Nat)
    (pos : Position) (r : List Char) : Runs (hexDigits cs.length n) ⟨pos, cs ++ r⟩
      (some (Number.radixValue 16 n ds)) ⟨pos.past cs, r⟩ := by
  induction cs generalizing ds n pos with
  | nil =>
    cases h
    rfl
  | cons c cs ih =>
    obtain ⟨d, hd, ds, hds, rfl⟩ : ∃ d, Number.digitValue? 16 c = some d ∧ ∃ ds',
        cs.mapM (Number.digitValue? 16) = some ds' ∧ d :: ds' = ds := by
      simpa [List.mapM_cons, Option.bind_eq_some_iff] using h
    have hline := isLineEnd_of_isIdPart (isIdPart_of_digitValue? (Option.isSome_of_mem hd))
    refine Runs.bind (runs_peek? _) ?_
    simp only [List.cons_append, List.head?_cons, Option.bind_some, hd]
    exact Runs.bind (runs_advance hline) (ih hds _ _)

theorem runs_hex {width n : Nat} (hwidth : 0 < width) (h : n < 16 ^ width) (pos : Position)
    (r : List Char) :
    Runs (hexDigits width 0) ⟨pos, hex width n ++ r⟩ (some n) ⟨pos.past (hex width n), r⟩ := by
  obtain ⟨ds, hds, hvalue⟩ := exists_digits_toDigits n
  have hle := (Nat.length_toDigits_le_iff (b := 16) (by decide) hwidth).2 h
  have hlength : (hex width n).length = width := by
    rw [hex, List.length_append, List.length_replicate]
    omega
  have hzeros : ∀ k, (List.replicate k '0' ++ Nat.toDigits 16 n).mapM (Number.digitValue? 16)
      = some (List.replicate k 0 ++ ds)
      ∧ Number.radixValue 16 0 (List.replicate k 0 ++ ds) = n := by
    intro k
    induction k with
    | zero => exact ⟨hds, hvalue⟩
    | succ k ih =>
      refine ⟨?_, ih.2⟩
      rw [List.replicate_succ, List.cons_append, List.mapM_cons, ih.1]
      rfl
  obtain ⟨hdigits, hn⟩ := hzeros (width - (Nat.toDigits 16 n).length)
  have hrun := runs_hexDigits hdigits 0 pos r
  rw [hn] at hrun
  rwa [← hex, hlength] at hrun

theorem digitValue?_of_mem_hex (h : c ∈ hex width n) : (Number.digitValue? 16 c).isSome = true := by
  rcases List.mem_append.mp h with h | h
  · rw [List.eq_of_mem_replicate h]
    rfl
  · exact isSome_digitValue?_of_mem h

theorem plain_hex (hl : l ≠ '<' ∧ l ≠ '-') : ∀ ch ∈ l :: hex width n, ch ≠ '<' ∧ ch ≠ '-' := by
  refine List.forall_mem_cons.mpr ⟨hl, fun ch hch => ?_⟩
  have hdigit := digitValue?_of_mem_hex hch
  constructor <;> rintro rfl <;> cases hdigit

theorem isEscape_hex (h : c.toNat < 256) : IsEscape ('x' :: hex 2 c.toNat) (charUnits c) := by
  intro strict pos r
  have hunits : charUnits c = [c.toNat.toUInt16] := if_pos (by omega)
  rw [hunits]
  exact Runs.bind (Runs.pure _ _) (Runs.bind (runs_peek? _) (Runs.bind (runs_advance rfl)
    (Runs.bind (runs_hex (by decide) h _ r) rfl)))

theorem isEscape_unit (u : CodeUnit) : IsEscape ('u' :: hex 4 u.toNat) [u] := by
  intro strict pos r
  have hlt : u.toNat < 65536 := u.toNat_lt
  have hbrace : ∀ d ∈ (hex 4 u.toNat ++ r).head?, d ≠ '{' := by
    rintro _ hd rfl
    have hdigits := @runs_hex 4 _ (by decide) hlt pos r
    obtain ⟨t, ht⟩ : ∃ t, hex 4 u.toNat ++ r = '{' :: t := ⟨_, List.eq_cons_of_mem_head? hd⟩
    rw [ht] at hdigits
    cases hdigits
  have hunits : codePointUnits u.toNat = [u] := by
    rw [codePointUnits, if_pos hlt]
    exact congrArg (List.cons · []) (UInt16.ofNat_toNat ..)
  have hunicode : Runs unicodeEscape ⟨pos.pastChar 'u', hex 4 u.toNat ++ r⟩ (some u.toNat)
      ⟨(pos.pastChar 'u').past (hex 4 u.toNat), r⟩ :=
    Runs.bind (runs_eat_of_not_head hbrace) (runs_hex (by decide) hlt _ r)
  refine Runs.bind (Runs.pure _ _) (Runs.bind (runs_peek? _) (Runs.bind (runs_advance rfl)
    (Runs.bind hunicode ?_)))
  show Runs (Pure.pure (some (codePointUnits u.toNat))) _ _ _
  rw [hunits]
  rfl

theorem isEscape_self (h : c = '\\' ∨ c = '"' ∨ c = '\'' ∨ c = '/') :
    IsEscape [c] (charUnits c) := by
  intro strict pos r
  rcases h with rfl | rfl | rfl | rfl <;> rfl

theorem isEscape_letter
    (h : (l, c) ∈ [('n', '\n'), ('r', '\r'), ('b', '\x08'), ('f', '\x0c'), ('v', '\x0b')]) :
    IsEscape [l] (charUnits c) := by
  intro strict pos r
  simp only [List.mem_cons, Prod.mk.injEq, List.not_mem_nil, or_false] at h
  rcases h with ⟨rfl, rfl⟩ | ⟨rfl, rfl⟩ | ⟨rfl, rfl⟩ | ⟨rfl, rfl⟩ | ⟨rfl, rfl⟩ <;> rfl

theorem runs_escape_zero {r : List Char} (h : ∀ c ∈ r.head?, c.isDigit = false) (strict : Bool)
    (pos : Position) :
    Runs (escape strict false) ⟨pos, '0' :: r⟩ (some (charUnits '\x00')) ⟨pos.pastChar '0', r⟩ := by
  refine Runs.bind (Runs.pure _ _) (Runs.bind (runs_peek? _) (Runs.bind (runs_advance rfl) ?_))
  refine Runs.ite_neg (by decide) (Runs.bind (runs_peek? _) (Runs.ite_pos ?_ rfl))
  rcases r with _ | ⟨c, r⟩
  · rfl
  · have hc : c.isDigit = false := h c rfl
    show ('0' == '0' && !c.isDigit) = true
    rw [hc]
    rfl

/-! ## Texts of strings -/

/-- A text that ends in its closing quote stands for some code units. -/
inductive StandsFor (q : Char) : List Char → List CodeUnit → Prop where
  | quote : StandsFor q [q] []
  | plain {c : Char} {cs : List Char} {us : List CodeUnit} (hq : c ≠ q) (hslash : c ≠ '\\')
    (hline : isLineEnd c = false) (h : StandsFor q cs us) :
    StandsFor q (c :: cs) (charUnits c ++ us)
  | escape {w cs : List Char} {new us : List CodeUnit} (hw : IsEscape w new)
    (hplain : ∀ ch ∈ w, ch ≠ '<' ∧ ch ≠ '-') (h : StandsFor q cs us) :
    StandsFor q ('\\' :: (w ++ cs)) (new ++ us)
  | zero {cs : List Char} {us : List CodeUnit} (hnext : ∀ c ∈ cs.head?, c.isDigit = false)
    (h : StandsFor q cs us) : StandsFor q ('\\' :: '0' :: cs) (charUnits '\x00' ++ us)

theorem runs_stringUnits (hq : q = '"' ∨ q = '\'') {new : List CodeUnit} (h : StandsFor q cs new)
    (strict : Bool) (start : Position) (fuel : Nat) (hfuel : cs.length ≤ fuel) (us : List CodeUnit)
    (pos : Position) (r : List Char) :
    Runs (stringUnits strict q start fuel us) ⟨pos, cs ++ r⟩ (us.reverse ++ new)
      ⟨pos.past cs, r⟩ := by
  have hqline : q ≠ '\n' ∧ q ≠ '\r' ∧ isLineEnd q = false := by
    rcases hq with rfl | rfl <;> decide
  have hslashq : ('\\' : Char) ≠ q := by
    rcases hq with rfl | rfl <;> decide
  induction h generalizing fuel us pos with
  | quote =>
    obtain ⟨fuel, rfl⟩ : ∃ k, fuel = k + 1 := ⟨fuel - 1, by simp at hfuel; omega⟩
    refine Runs.bind (runs_peek? _) (Runs.ite_neg ?_ (Runs.ite_pos ?_ ?_))
    · simp [hqline]
    · simp
    · refine Runs.bind (runs_advance hqline.2.2) ?_
      rw [List.append_nil]
      rfl
  | @plain c cs new hcq hslash hline _ ih =>
    obtain ⟨fuel, rfl⟩ : ∃ k, fuel = k + 1 := ⟨fuel - 1, by simp at hfuel; omega⟩
    have hnl : c ≠ '\n' ∧ c ≠ '\r' := by
      constructor <;> rintro rfl <;> cases hline
    refine Runs.bind (runs_peek? _) (Runs.ite_neg ?_ (Runs.ite_neg ?_ (Runs.ite_neg ?_
      (Runs.bind (runs_advance hline) ?_))))
    · simpa using hnl
    · simpa using hcq
    · simpa using hslash
    · have hrun := ih fuel (by simpa using hfuel) ((charUnits c).reverse ++ us) (pos.pastChar c)
      simpa [List.append_assoc] using hrun
  | @escape w cs first new hw _ _ ih =>
    obtain ⟨fuel, rfl⟩ : ∃ k, fuel = k + 1 := ⟨fuel - 1, by simp at hfuel; omega⟩
    have hescape := hw strict (pos.pastChar '\\') (cs ++ r)
    have hrun := ih fuel (by simp at hfuel; omega) (first.reverse ++ us)
      ((pos.pastChar '\\').past w)
    rw [List.cons_append, List.append_assoc, Position.past_cons, Position.past_append]
    refine Runs.bind (runs_peek? _) (Runs.ite_neg (by decide) (Runs.ite_neg ?_ (Runs.ite_pos rfl
      (Runs.bind (runs_advance rfl) (Runs.bind hescape ?_)))))
    · simpa using hslashq
    · simpa [List.append_assoc] using hrun
  | @zero cs new hnext hs ih =>
    obtain ⟨fuel, rfl⟩ : ∃ k, fuel = k + 1 := ⟨fuel - 1, by simp at hfuel; omega⟩
    have hne : cs ≠ [] := by
      cases hs <;> exact List.cons_ne_nil _ _
    have hescape := runs_escape_zero (r := cs ++ r)
      (by rwa [List.head?_append_of_ne_nil _ hne]) strict (pos.pastChar '\\')
    have hrun := ih fuel (by simp at hfuel; omega) ((charUnits '\x00').reverse ++ us)
      ((pos.pastChar '\\').pastChar '0')
    refine Runs.bind (runs_peek? _) (Runs.ite_neg (by decide) (Runs.ite_neg ?_ (Runs.ite_pos rfl
      (Runs.bind (runs_advance rfl) (Runs.bind hescape ?_)))))
    · simpa using hslashq
    · simpa [List.append_assoc] using hrun

/-! ## The text that is written -/

variable {asciiOnly : Bool} {us : List CodeUnit}

theorem StandsFor.charEscape (h : StandsFor q cs us) (c : Char) :
    StandsFor q (charEscape c ++ cs) (charUnits c ++ us) := by
  unfold Spelling.charEscape
  split
  · exact .escape (isEscape_hex (by omega)) (plain_hex (by decide)) h
  · unfold unitEscapes
    induction charUnits c with
    | nil => exact h
    | cons u new ih =>
      rw [List.flatMap_cons, List.append_assoc]
      show StandsFor q _ ([u] ++ (new ++ us))
      exact .escape (isEscape_unit u) (plain_hex (by decide)) ih

/-- What is written for a character stands for it.  After a null character without digits there
may be no digit. -/
theorem StandsFor.stringChar (hq : q = '"' ∨ q = '\'') (c : Char) {next : Option Char}
    (h : StandsFor q cs us)
    (hnext : next.any Char.isDigit = false → ∀ d ∈ cs.head?, d.isDigit = false) :
    StandsFor q (Spelling.stringChar asciiOnly q c next ++ cs) (charUnits c ++ us) := by
  unfold Spelling.stringChar
  split
  · exact .escape (isEscape_self (by simp)) (by decide) h
  iterate 5 exact .escape (isEscape_letter (by simp)) (by decide) h
  · exact .escape (w := 'u' :: Spelling.hex 4 0x2028) (isEscape_unit 0x2028) (by decide) h
  · exact .escape (w := 'u' :: Spelling.hex 4 0x2029) (isEscape_unit 0x2029) (by decide) h
  · exact .escape (w := 'u' :: Spelling.hex 4 0xfeff) (isEscape_unit 0xfeff) (by decide) h
  · by_cases hdigit : next.any Char.isDigit = true
    · rw [if_pos hdigit]
      exact .escape (isEscape_hex (c := '\x00') (by decide)) (by decide) h
    · rw [if_neg hdigit]
      exact .zero (hnext (by simpa using hdigit)) h
  · refine .plain ?_ (by decide) (by decide) h
    rcases hq with rfl | rfl <;> decide
  · next hslash hnl hcr _ _ _ hls hps _ _ _ =>
    split
    · next hc =>
      obtain rfl := beq_iff_eq.mp hc
      refine .escape (isEscape_self ?_) ?_ h
      · rcases hq with hq | hq <;> simp [hq]
      · rcases hq with rfl | rfl <;> decide
    · next hc =>
      split
      · exact h.charEscape _
      · split
        · exact h.charEscape _
        · refine .plain (by simpa using hc) hslash ?_ h
          simp only [isLineEnd, Bool.or_eq_false_iff, beq_eq_false_iff_ne]
          exact ⟨⟨⟨hnl, hcr⟩, hls⟩, hps⟩

theorem head?_stringChar (asciiOnly : Bool) (q c : Char) (next : Option Char) :
    (Spelling.stringChar asciiOnly q c next).head? = some c ∨
      (Spelling.stringChar asciiOnly q c next).head? = some '\\' := by
  have hescape : (Spelling.charEscape c).head? = some '\\' := by
    unfold Spelling.charEscape Spelling.unitEscapes charUnits
    repeat' split
    all_goals rfl
  unfold Spelling.stringChar
  repeat' split
  all_goals first | exact .inl rfl | exact .inr rfl | exact .inr hescape

theorem standsFor_stringBody (asciiOnly : Bool) (hq : q = '"' ∨ q = '\'') (s : List Char) :
    StandsFor q (stringBody asciiOnly q s ++ [q]) (s.flatMap charUnits) := by
  induction s with
  | nil => exact .quote
  | cons c s ih =>
    rw [stringBody, List.append_assoc, List.flatMap_cons]
    refine ih.stringChar hq c fun hnext => ?_
    cases s with
    | nil =>
      rintro _ ⟨⟩
      rcases hq with rfl | rfl <;> rfl
    | cons d s =>
      intro x hx
      rw [stringBody, List.append_assoc, List.head?_append] at hx
      rcases head?_stringChar asciiOnly q d s.head? with h | h <;> rw [h] at hx <;> cases hx
      · simpa using hnext
      · rfl

/-! ### Escapes for HTML pages -/

theorem inlineScript_append {w : List Char} (h : ∀ ch ∈ w, ch ≠ '<' ∧ ch ≠ '-') (cs : List Char) :
    inlineScript (w ++ cs) = w ++ inlineScript cs := by
  induction w with
  | nil => rfl
  | cons c w ih =>
    obtain ⟨hlt, hdash⟩ := h c List.mem_cons_self
    rw [List.cons_append, List.cons_append, ← ih fun ch hch => h ch (List.mem_cons_of_mem _ hch),
      inlineScript]
    all_goals simp [hlt, hdash]

theorem head?_inlineScript (cs : List Char) :
    (inlineScript cs).head? = cs.head? ∨ (inlineScript cs).head? = some '\\' := by
  fun_cases inlineScript cs <;> simp

theorem StandsFor.of_plain (h : StandsFor q (c :: cs) us) (hq : c ≠ q) (hslash : c ≠ '\\') :
    ∃ us', us = charUnits c ++ us' ∧ isLineEnd c = false ∧ StandsFor q cs us' := by
  cases h with
  | quote => exact absurd rfl hq
  | plain _ _ hline h => exact ⟨_, rfl, hline, h⟩
  | escape | zero => exact absurd rfl hslash

theorem StandsFor.inlineScript (hq : q = '"' ∨ q = '\'') (h : StandsFor q cs us) :
    StandsFor q (Spelling.inlineScript cs) us := by
  have hne : ('<' : Char) ≠ q ∧ ('/' : Char) ≠ q ∧ ('!' : Char) ≠ q ∧ ('-' : Char) ≠ q ∧
      ('>' : Char) ≠ q := by
    rcases hq with rfl | rfl <;> decide
  obtain ⟨hlt, hsl, hex, hda, hgt⟩ := hne
  -- An escape is passed over whole, so the induction is on the length and not on the text.
  induction hn : cs.length using Nat.strong_induction_on generalizing cs us with
  | _ n ih =>
    fun_cases Spelling.inlineScript cs with
    | case1 => exact h
    | case2 rest hscript =>
      obtain ⟨_, rfl, hline, h⟩ := h.of_plain hlt (by decide)
      obtain ⟨_, rfl, -, h⟩ := h.of_plain hsl (by decide)
      have hrest := ih rest.length (by simp at hn; omega) h rfl
      exact .plain hlt (by decide) hline (.escape (isEscape_self (by simp)) (by decide) hrest)
    | case3 rest hscript =>
      obtain ⟨_, rfl, hline, h⟩ := h.of_plain hlt (by decide)
      have hrest := ih ('/' :: rest).length (by simp at hn ⊢; omega) h rfl
      exact .plain hlt (by decide) hline hrest
    | case4 rest =>
      obtain ⟨_, rfl, -, h⟩ := h.of_plain hlt (by decide)
      obtain ⟨_, rfl, hbang, h⟩ := h.of_plain hex (by decide)
      obtain ⟨_, rfl, hdash, h⟩ := h.of_plain hda (by decide)
      obtain ⟨_, rfl, -, h⟩ := h.of_plain hda (by decide)
      have hrest := ih rest.length (by simp at hn; omega) h rfl
      exact .escape (isEscape_hex (c := '<') (by decide)) (by decide)
        (.plain hex (by decide) hbang (.plain hda (by decide) hdash
          (.plain hda (by decide) hdash hrest)))
    | case5 rest =>
      obtain ⟨_, rfl, hdash, h⟩ := h.of_plain hda (by decide)
      obtain ⟨_, rfl, -, h⟩ := h.of_plain hda (by decide)
      obtain ⟨_, rfl, -, h⟩ := h.of_plain hgt (by decide)
      have hrest := ih rest.length (by simp at hn; omega) h rfl
      exact .plain hda (by decide) hdash (.plain hda (by decide) hdash
        (.escape (isEscape_hex (c := '>') (by decide)) (by decide) hrest))
    | case6 c rest =>
      cases h with
      | quote => exact .quote
      | plain hcq hslash hline h =>
        exact .plain hcq hslash hline (ih rest.length (by simp at hn; omega) h rfl)
      | @escape w cs new us hw hplain h =>
        rw [inlineScript_append hplain]
        exact .escape hw hplain (ih cs.length (by simp at hn; omega) h rfl)
      | @zero cs us hnext h =>
        refine .zero ?_ (ih cs.length (by simp at hn; omega) h rfl)
        show ∀ c ∈ (Spelling.inlineScript cs).head?, c.isDigit = false
        rcases head?_inlineScript cs with hhead | hhead <;> rw [hhead]
        · exact hnext
        · intro c hc
          cases hc
          rfl

/-! ## Whole strings -/

theorem quoteFor_eq (cs : List Char) :
    Spelling.quoteFor cs = '"' ∨ quoteFor cs = '\'' := by
  unfold quoteFor
  split
  · exact .inr rfl
  · exact .inl rfl

theorem toList_quote (o : OutputOptions) (s : String) : ∃ q cs,
    (quote o s).toList = q :: cs ∧ (q = '"' ∨ q = '\'') ∧ StandsFor q cs (units s) := by
  have hq := quoteFor_eq s.toList
  have hplain : ∀ ch ∈ [Spelling.quoteFor s.toList], ch ≠ '<' ∧ ch ≠ '-' := by
    rcases hq with h | h <;> simp [h]
  have hbody := standsFor_stringBody o.asciiOnly hq s.toList
  unfold Spelling.quote
  rw [String.toList_ofList]
  split
  · exact ⟨_, _, inlineScript_append hplain _, hq, hbody.inlineScript hq⟩
  · exact ⟨_, _, rfl, hq, hbody⟩

theorem decodeUnits?_units (s : String) : decodeUnits? (units s) = some s := by
  have hall : ∀ cs : List Char, (cs.map some).mapM id = some cs := by
    intro cs
    induction cs with
    | nil => rfl
    | cons c cs ih => simp [List.mapM_cons, ih]
  rw [decodeUnits?, scalars_units, hall, Option.map_some, String.ofList_toList]

theorem runs_string (hq : q = '"' ∨ q = '\'') {s : String} (h : StandsFor q cs (units s))
    (strict : Bool) (start : Cursor) (pos : Position) (r : List Char) :
    Runs (string strict q start) ⟨pos, cs ++ r⟩ (.string s none) ⟨pos.past cs, r⟩ := by
  have hunits := runs_stringUnits hq h strict start.pos ((cs ++ r).length + 1) (by simp; omega) []
    pos r
  refine Runs.bind (Runs.pure _ _) (Runs.bind hunits ?_)
  simp only [List.reverse_nil, List.nil_append, decodeUnits?_units]
  rfl

end Literal

end Laconic
