import Laconic.Token.Cursor

/-!
# Moving a cursor over known text

What a reader does on a text of which the beginning is known: it moves over the
characters of that beginning and stops at the rest.  Positions matter only by their
byte offsets, which tell where in the whole text a cursor stands.
-/

namespace Laconic

/-- What holds of all characters of a list is decided on the list, not on all characters. -/
instance (priority := 2000) decidableAllChars (cs : List Char) (P : Char → Prop)
    [DecidablePred P] : Decidable (∀ c ∈ cs, P c) :=
  List.decidableBAll P cs

/-- So is what holds of a character that may be missing. -/
instance (priority := 2000) decidableOptChar (o : Option Char) (P : Char → Prop)
    [DecidablePred P] : Decidable (∀ c ∈ o, P c) :=
  Option.decidableForallMem o

/-! ## Operations that succeed -/

section Runs

variable {ε σ α β : Type} {x : EStateM ε σ α} {f : α → EStateM ε σ β} {s s' s'' : σ} {a : α} {b : β}
  {c : Prop}

/-- An operation leads from one state to another and gives a result. -/
def Runs (x : EStateM ε σ α) (s : σ) (a : α) (s' : σ) : Prop := x s = .ok a s'

theorem Runs.bind (h : Runs x s a s') (hf : Runs (f a) s' b s'') : Runs (x >>= f) s b s'' := by
  show EStateM.bind x f s = _
  rw [EStateM.bind, h]
  exact hf

theorem Runs.exists_of_bind (h : Runs (x >>= f) s b s'') :
    ∃ a s', Runs x s a s' ∧ Runs (f a) s' b s'' := by
  change EStateM.bind x f s = _ at h
  unfold EStateM.bind at h
  split at h
  · next a s' hx => exact ⟨a, s', hx, h⟩
  · cases h

theorem Runs.pure (a : α) (s : σ) : Runs (pure a : EStateM ε σ α) s a s := rfl

theorem Runs.map {g : α → β} (h : Runs x s a s') : Runs (g <$> x) s (g a) s' := by
  show EStateM.map g x s = _
  rw [EStateM.map, h]

theorem Runs.ite_pos [Decidable c] {y : EStateM ε σ α} (hc : c) (h : Runs x s a s') :
    Runs (if c then x else y) s a s' := by
  rwa [if_pos hc]

theorem Runs.ite_neg [Decidable c] {y : EStateM ε σ α} (hc : ¬c) (h : Runs y s a s') :
    Runs (if c then x else y) s a s' := by
  rwa [if_neg hc]

end Runs

/-! ## Bytes -/

/-- The number of bytes that characters take. -/
def byteCount : List Char → Nat
  | [] => 0
  | c :: cs => c.utf8Size + byteCount cs

@[simp] theorem byteCount_nil : byteCount [] = 0 := rfl

@[simp] theorem byteCount_cons (c : Char) (cs : List Char) :
    byteCount (c :: cs) = c.utf8Size + byteCount cs := rfl

@[simp] theorem byteCount_append (a b : List Char) :
    byteCount (a ++ b) = byteCount a + byteCount b := by
  induction a with
  | nil => simp
  | cons c a ih => simp [ih, Nat.add_assoc]

theorem takeBytes_append (w r : List Char) : takeBytes (byteCount w) (w ++ r) = w := by
  induction w with
  | nil => cases r <;> rfl
  | cons c w ih =>
    have hpos := c.utf8Size_pos
    have hne : byteCount (c :: w) ≠ 0 := by
      rw [byteCount_cons]
      omega
    rw [List.cons_append, takeBytes, if_neg hne, byteCount_cons, Nat.add_sub_cancel_left, ih]

theorem dropBytes_append (w r : List Char) : dropBytes (byteCount w) (w ++ r) = r := by
  induction w with
  | nil => cases r <;> rfl
  | cons c w ih =>
    have hpos := c.utf8Size_pos
    have hne : byteCount (c :: w) ≠ 0 := by
      rw [byteCount_cons]
      omega
    rw [List.cons_append, dropBytes, if_neg hne, byteCount_cons, Nat.add_sub_cancel_left, ih]

/-! ## Positions -/

/-- The position after characters that end no line. -/
def Position.past (p : Position) (cs : List Char) : Position := cs.foldl Position.pastChar p

@[simp] theorem Position.past_nil (p : Position) : p.past [] = p := rfl

@[simp] theorem Position.past_cons (p : Position) (c : Char) (cs : List Char) :
    p.past (c :: cs) = (p.pastChar c).past cs := rfl

theorem Position.past_append (p : Position) (a b : List Char) :
    p.past (a ++ b) = (p.past a).past b := List.foldl_append

@[simp] theorem Position.offset_past (p : Position) (cs : List Char) :
    (p.past cs).offset = p.offset + byteCount cs := by
  induction cs generalizing p with
  | nil => rfl
  | cons c cs ih =>
    rw [past_cons, ih, byteCount_cons]
    exact Nat.add_assoc ..

/-! ## Cursors -/

namespace Cursor

variable {c : Cursor} {r w : List Char} {chars : List Char} {p : Char → Bool}

/-- A cursor moved over characters that end no line. -/
def past (c : Cursor) (w r : List Char) : Cursor := ⟨c.pos.past w, r⟩

/-- A cursor stands at its place in a text. -/
def StandsIn (c : Cursor) (chars : List Char) : Prop :=
  ∃ before, chars = before ++ c.rest ∧ c.pos.offset = byteCount before

theorem StandsIn.dropBytes (h : c.StandsIn chars) : dropBytes c.pos.offset chars = c.rest := by
  obtain ⟨before, rfl, hoffset⟩ := h
  rw [hoffset, dropBytes_append]

theorem StandsIn.past (h : c.StandsIn chars) (hrest : c.rest = w ++ r) :
    (c.past w r).StandsIn chars := by
  obtain ⟨before, rfl, hoffset⟩ := h
  refine ⟨before ++ w, ?_, ?_⟩
  · rw [hrest, List.append_assoc]
    rfl
  · rw [Cursor.past, Position.offset_past, byteCount_append, hoffset]

theorem advance_of_cons {ch : Char} (hrest : c.rest = ch :: r) (hline : isLineEnd ch = false) :
    c.advance = ⟨c.pos.pastChar ch, r⟩ := by
  unfold advance
  split
  · next h => rw [hrest] at h; cases h
  · next h =>
    rw [hrest] at h
    cases h
    cases hline
  · next h =>
    rw [hrest] at h
    cases h
    rw [hline]
    rfl

theorem skipWhileFrom_append (pos : Position) (hw : ∀ ch ∈ w, p ch = true ∧ isLineEnd ch = false)
    (hr : ∀ ch ∈ r.head?, p ch = false) : skipWhileFrom p pos (w ++ r) = ⟨pos.past w, r⟩ := by
  induction w generalizing pos with
  | nil =>
    cases r with
    | nil => rfl
    | cons ch r =>
      have hch : p ch = false := hr ch rfl
      simp [skipWhileFrom, hch]
  | cons ch w ih =>
    obtain ⟨hch, hline⟩ := hw ch List.mem_cons_self
    rw [List.cons_append, skipWhileFrom, hch, hline]
    exact ih _ fun c hc => hw c (List.mem_cons_of_mem _ hc)

theorem skipWhile_of_append (hrest : c.rest = w ++ r)
    (hw : ∀ ch ∈ w, p ch = true ∧ isLineEnd ch = false) (hr : ∀ ch ∈ r.head?, p ch = false) :
    c.skipWhile p = c.past w r := by
  rw [skipWhile, hrest]
  exact skipWhileFrom_append _ hw hr

/-- The text that a cursor was moved over. -/
theorem textTo_of_append {a b : Cursor} (hrest : a.rest = w ++ r) (hpos : b.pos = a.pos.past w) :
    a.textTo b = String.ofList w := by
  rw [textTo, hpos, hrest, Position.offset_past, Nat.add_sub_cancel_left, takeBytes_append]

end Cursor

namespace Scan

variable {ch : Char} {pos : Position} {r : List Char}

theorem runs_peek? (c : Cursor) : Runs peek? c c.rest.head? c := rfl

theorem runs_advance (hline : isLineEnd ch = false) :
    Runs advance ⟨pos, ch :: r⟩ () ⟨pos.pastChar ch, r⟩ := by
  show EStateM.Result.ok () (Cursor.advance ⟨pos, ch :: r⟩) = _
  rw [Cursor.advance_of_cons rfl hline]

theorem runs_skipWhile {p : Char → Bool} {w : List Char}
    (hw : ∀ ch ∈ w, p ch = true ∧ isLineEnd ch = false) (hr : ∀ ch ∈ r.head?, p ch = false) :
    Runs (skipWhile p) ⟨pos, w ++ r⟩ () ⟨pos.past w, r⟩ := by
  show EStateM.Result.ok () (Cursor.skipWhile p ⟨pos, w ++ r⟩) = _
  rw [Cursor.skipWhile_of_append rfl hw hr]
  rfl

theorem runs_eat_of_head (hline : isLineEnd ch = false) :
    Runs (eat ch) ⟨pos, ch :: r⟩ true ⟨pos.pastChar ch, r⟩ := by
  refine Runs.bind (runs_peek? _) ?_
  rw [if_pos (by simp)]
  exact Runs.bind (runs_advance hline) rfl

theorem runs_eat_of_not_head {c : Cursor} (h : ∀ d ∈ c.rest.head?, d ≠ ch) :
    Runs (eat ch) c false c := by
  refine Runs.bind (runs_peek? _) ?_
  rw [if_neg]
  · rfl
  · intro heq
    have hhead : c.rest.head? = some ch := by simpa using heq
    exact h ch hhead rfl

end Scan

end Laconic
