import Laconic.Proofs.Output.Written

/-!
# What a layout writes

A layout is a list of pieces; rendering them adds to a text.  What the text will be in the
end depends on the tokens that are still to come: a blank stands between two tokens only
if they would run together, and the semicolon of a statement is left out before a closing
brace.  `Rendered.full` is the text with given tokens after it, and `Layout.Puts` says that
under the default options a layout puts tokens before those that come next: `f rest` stands
for the tokens `rest` with those of the layout before them.  `Layout.Writes` is the case
where these are the same tokens whatever comes next.

Marks of places and blanks of indented output write nothing, and one layout after another
puts the tokens of both, so what a node writes follows from what its parts write.
-/

namespace Laconic

open Written Rendered

/-- The semicolon of a statement that has ended before some tokens: none before a closing brace. -/
def due (pending : Bool) (ws : List Written) : List Written :=
  if pending && ws.head?.all (·.text != ['\x7d']) then [punct .semicolon (@rfl _ true)] else []

namespace Rendered

variable {s : String} {w : Written} {r : Rendered}

/-- The text that comes about if some tokens are the last ones. -/
def full (r : Rendered) (ws : List Written) : List Char :=
  r.text.toList ++ joined r.last (due r.pendingSemi ws ++ ws)

theorem full_of_not_pendingSemi (h : r.pendingSemi = false) (ws : List Written) :
    r.full ws = r.text.toList ++ joined r.last ws := by
  rw [full, h]
  rfl

theorem emitMap_eq (files : List String) (r : Rendered) : (emitMap files r).text = r.text ∧
    (emitMap files r).last = r.last ∧ (emitMap files r).pendingSemi = r.pendingSemi ∧
    (emitMap files r).comments = r.comments := by
  unfold emitMap
  split <;> exact ⟨rfl, rfl, rfl, rfl⟩

/-- The text between two tokens; more of the second one may follow. -/
theorem separate_eq {t : List Char} (hs : s.toList ≠ []) (htext : w.text = s.toList ++ t)
    (r : Rendered) :
    (separate s r).text.toList = r.text.toList ++ w.gap r.last ∧
    (separate s r).pendingSemi = r.pendingSemi ∧ (separate s r).comments = r.comments := by
  obtain ⟨c, cs, hc⟩ := List.exists_cons_of_ne_nil hs
  have hw : w.text = c :: (cs ++ t) := by rw [htext, hc, List.cons_append]
  rw [gap_of_text hw]
  unfold separate
  rw [hc]
  dsimp only
  split
  · exact ⟨String.toList_append, rfl, rfl⟩
  · exact ⟨(List.append_nil _).symm, rfl, rfl⟩

theorem joined_semicolon (before : Char) (ws : List Written) :
    joined before (punct .semicolon rfl :: ws) = ';' :: joined ';' ws := by
  have hword : isWordChar ';' = false := by decide
  have htext : (punct .semicolon rfl).text = [';'] := by decide
  rw [joined, gap_of_text htext, Written.last, htext]
  simp [runTogether, hword]

theorem flushSemi_of_pendingSemi (h : r.pendingSemi = true) :
    flushSemi {} r = raw ";" { r with pendingSemi := false } := by
  unfold flushSemi
  rw [h]
  rfl

theorem toList_flushSemi (r : Rendered) : (flushSemi {} r).text.toList = r.full [] := by
  cases hr : r.pendingSemi with
  | false =>
    rw [full_of_not_pendingSemi hr, flushSemi, hr]
    exact (List.append_nil _).symm
  | true =>
    have hsemi : joined r.last (due true [] ++ []) = [';'] := joined_semicolon r.last []
    rw [flushSemi_of_pendingSemi hr, full, hr, hsemi]
    exact String.toList_append

theorem endStatement_eq (h : s = "\x7d" ↔ w.text = ['\x7d']) (r : Rendered) :
    (endStatement {} s r).pendingSemi = false ∧ (endStatement {} s r).comments = r.comments ∧
      ∀ rest, (endStatement {} s r).full (w :: rest) = r.full (w :: rest) := by
  cases hr : r.pendingSemi with
  | false =>
    have hend : endStatement {} s r = r := by
      unfold endStatement
      rw [hr]
      rfl
    rw [hend]
    exact ⟨hr, rfl, fun _ => rfl⟩
  | true =>
    unfold endStatement
    rw [flushSemi_of_pendingSemi hr, hr]
    by_cases hs : s = "\x7d"
    · have hnone : ∀ rest, due true (w :: rest) = [] := fun rest => by simp [due, h.mp hs]
      rw [beq_iff_eq.mpr hs]
      refine ⟨rfl, rfl, fun rest => ?_⟩
      rw [full, full, hr, hnone]
      rfl
    · have hsome : ∀ rest, due true (w :: rest) = [punct .semicolon rfl] := fun rest => by
        simp [due, mt h.mpr hs]
      rw [beq_eq_false_iff_ne.mpr hs]
      refine ⟨rfl, rfl, fun rest => ?_⟩
      rw [full_of_not_pendingSemi rfl, full, hr, hsome, List.singleton_append, joined_semicolon]
      show (r.text ++ ";").toList ++ joined ';' (w :: rest) = _
      rw [String.toList_append, List.append_assoc]
      rfl

theorem full_token {t : String} (hs : s.toList ≠ []) (htext : w.text = s.toList ++ t.toList)
    (hbrace : s = "\x7d" ↔ w.text = ['\x7d']) (files : List String) (r : Rendered) :
    (raw t (token {} files s r)).pendingSemi = false ∧
      (raw t (token {} files s r)).comments = r.comments ∧
      ∀ rest, (raw t (token {} files s r)).full rest = r.full (w :: rest) := by
  obtain ⟨hendSemi, hendComments, hfull⟩ := endStatement_eq hbrace r
  obtain ⟨htext', hsemi, hcomments⟩ := separate_eq hs htext (endStatement {} s r)
  obtain ⟨hmapText, -, hmapSemi, hmapComments⟩ :=
    emitMap_eq files (separate s (endStatement {} s r))
  have hpending : (raw t (token {} files s r)).pendingSemi = false :=
    (hmapSemi.trans hsemi).trans hendSemi
  have hlast : (raw t (token {} files s r)).last = w.last := by
    show t.toList.getLastD (s.toList.getLastD _) = _
    rw [Written.last, htext]
    simp only [List.getLastD_eq_getLast?, List.getLast?_append]
    rw [List.getLast?_eq_getLast_of_ne_nil hs]
    cases t.toList.getLast? <;> rfl
  refine ⟨hpending, (hmapComments.trans hcomments).trans hendComments, fun rest => ?_⟩
  rw [full_of_not_pendingSemi hpending, ← hfull, full_of_not_pendingSemi hendSemi, hlast]
  show ((emitMap files (separate s (endStatement {} s r))).text ++ s ++ t).toList ++ _ = _
  simp only [String.toList_append, hmapText, htext', joined, htext, List.append_assoc]

end Rendered

namespace Layout

variable {s : String} {files : List String} {r : Rendered} {w : Written} {least : Nat} {e : Expr}
  {l : Nat → Layout}

/-- A layout puts tokens before those that come next, under the default options and where no
comments are left. -/
structure Puts (l : Layout) (f : List Written → List Written) : Prop where
  noIn : (l false).2 = false
  full : ∀ (files : List String) {r : Rendered}, r.comments = [] →
    (pieces {} files l r).comments = [] ∧
      ∀ rest, (pieces {} files l r).full rest = r.full (f rest)

/-- A layout comes to some tokens. -/
structure Writes (l : Layout) (ws : List Written) : Prop extends Puts l (ws ++ ·) where
  pendingSemi : ∀ (files : List String) {r : Rendered}, r.comments = [] →
    (pieces {} files l r).pendingSemi = (r.pendingSemi && ws.isEmpty)

variable {a b : Layout} {ws ws' : List Written} {f g : List Written → List Written}

theorem append_assoc (a b c : Layout) : a ++ b ++ c = a ++ (b ++ c) := by
  funext noIn
  show ((a noIn).1 ++ (b (a noIn).2).1 ++ (c (b (a noIn).2).2).1, _) = (_, _)
  rw [List.append_assoc]

theorem Puts.congr (h : a.Puts f) (hfg : ∀ rest, f rest = g rest) : a.Puts g :=
  (funext hfg : f = g) ▸ h

theorem Puts.pieces_append (ha : a.Puts f) (b : Layout) :
    pieces {} files (a ++ b) r = pieces {} files b (pieces {} files a r) := by
  show ((a false).1 ++ (b (a false).2).1).foldl _ r = _
  rw [ha.noIn, List.foldl_append]
  rfl

theorem Puts.append (ha : a.Puts f) (hb : b.Puts g) : (a ++ b).Puts fun rest => f (g rest) := by
  refine ⟨?_, fun files r hr => ?_⟩
  · show (b (a false).2).2 = false
    rw [ha.noIn, hb.noIn]
  · obtain ⟨hr₁, hfull₁⟩ := ha.full files hr
    obtain ⟨hr₂, hfull₂⟩ := hb.full files hr₁
    rw [ha.pieces_append]
    exact ⟨hr₂, fun rest => (hfull₂ rest).trans (hfull₁ _)⟩

theorem writes_nothing (hnoIn : (a false).2 = false)
    (h : ∀ (files : List String) (r : Rendered), r.comments = [] →
      (pieces {} files a r).text = r.text ∧ (pieces {} files a r).last = r.last ∧
      (pieces {} files a r).pendingSemi = r.pendingSemi ∧
      (pieces {} files a r).comments = []) : a.Writes [] := by
  refine ⟨⟨hnoIn, fun files r hr => ?_⟩, fun files r hr => ?_⟩ <;>
    obtain ⟨htext, hlast, hsemi, hcomments⟩ := h files r hr
  · refine ⟨hcomments, fun rest => ?_⟩
    rw [full, htext, hlast, hsemi]
    rfl
  · rw [hsemi]
    exact (Bool.and_true _).symm

theorem writes_empty : (∅ : Layout).Writes [] :=
  writes_nothing rfl fun _ _ hr => ⟨rfl, rfl, rfl, hr⟩

theorem writes_space : space.Writes [] := writes_nothing rfl fun _ _ hr => ⟨rfl, rfl, rfl, hr⟩

theorem writes_newline : newline.Writes [] := writes_nothing rfl fun _ _ hr => ⟨rfl, rfl, rfl, hr⟩

theorem Writes.congr (h : a.Writes ws) (hws : ws = ws') : a.Writes ws' := hws ▸ h

theorem Writes.append (ha : a.Writes ws) (hb : b.Writes ws') : (a ++ b).Writes (ws ++ ws') := by
  refine ⟨(ha.toPuts.append hb.toPuts).congr fun rest => (List.append_assoc ..).symm,
    fun files r hr => ?_⟩
  rw [ha.pieces_append, hb.pendingSemi files (ha.full files hr).1, ha.pendingSemi files hr]
  cases ws <;> simp

theorem Writes.semi (h : a.Writes ws) (hne : ws ≠ []) :
    (a ++ semi).Puts fun rest => ws ++ (due true rest ++ rest) := by
  refine ⟨h.noIn, fun files r hr => ?_⟩
  obtain ⟨hr₁, hfull⟩ := h.full files hr
  have hsemi : (pieces {} files a r).pendingSemi = false := by
    rw [h.pendingSemi files hr, List.isEmpty_eq_false_iff.mpr hne, Bool.and_false]
  rw [h.pieces_append]
  refine ⟨hr₁, fun rest => ?_⟩
  rw [← hfull, full_of_not_pendingSemi hsemi]
  rfl

theorem writes_mark (loc : Span) (name : Option String) : (ofPieces [.map loc name]).Writes [] := by
  refine writes_nothing rfl fun files r hr => ?_
  have h : pieces {} files (ofPieces [.map loc name]) r
      = if loc.isNowhere then r else { r with pendingMap := some (loc, name) } := rfl
  rw [h]
  split <;> exact ⟨rfl, rfl, rfl, hr⟩

theorem writes_map (loc : Span) : (map loc).Writes [] := writes_mark loc none

theorem writes_lead (loc : Span) : (lead loc).Writes [] := by
  have hcomments : (ofPieces [.comments loc]).Writes [] := by
    refine writes_nothing rfl fun files r hr => ?_
    have h : pieces {} files (ofPieces [.comments loc]) r
        = commentsBefore {} files loc r := rfl
    rw [h, commentsBefore, hr]
    split
    · exact ⟨rfl, rfl, rfl, hr⟩
    · exact ⟨rfl, rfl, rfl, rfl⟩
  exact hcomments.append (writes_map loc)

theorem Puts.indented (h : a.Puts f) : (indented a).Puts f := by
  have hindent : ∀ p ∈ [Piece.indent, .dedent], (ofPieces [p]).Writes [] := by
    intro p hp
    rcases List.mem_pair.mp hp with rfl | rfl <;>
      exact writes_nothing rfl fun _ _ hr => ⟨rfl, rfl, rfl, hr⟩
  exact ((hindent .indent (by simp)).toPuts.append h).append (hindent .dedent (by simp)).toPuts

theorem Writes.guarded (h : a.Writes ws) : (guarded a).Writes ws :=
  ⟨⟨rfl, h.full⟩, h.pendingSemi⟩

theorem writes_token (h : w.text = s.toList) : (token s).Writes [w] := by
  have hne : s.toList ≠ [] := by
    obtain ⟨c, cs, hc, -⟩ := w.exists_text
    rw [← h, hc]
    exact List.cons_ne_nil _ _
  have htext : w.text = s.toList ++ "".toList := h.trans (List.append_nil _).symm
  have hbrace : s = "\x7d" ↔ w.text = ['\x7d'] := by
    rw [h]
    exact String.toList_inj.symm
  have hraw : ∀ (files : List String) (r : Rendered),
      Rendered.raw "" (Rendered.token {} files s r) = Rendered.pieces {} files (token s) r := by
    intro files r
    show Rendered.raw "" (Rendered.token {} files s r) = Rendered.token {} files s r
    unfold Rendered.raw
    rw [String.append_empty]
    rfl
  have hfull : ∀ (files : List String) (r : Rendered), _ := fun files r =>
    hraw files r ▸ Rendered.full_token hne htext hbrace files r
  exact ⟨⟨rfl, fun files r hr => ⟨(hfull files r).2.1.trans hr, (hfull files r).2.2⟩⟩,
    fun files r _ => (hfull files r).1.trans (Bool.and_false _).symm⟩

theorem writes_pointed (hs : s.toList ≠ []) (hbrace : s ≠ "\x7d")
    (h : w.text = s.toList ++ ['.']) : (token s ++ raw ".").Writes [w] := by
  have hne : s = "\x7d" ↔ w.text = ['\x7d'] := by
    refine iff_of_false hbrace fun heq => ?_
    rw [h] at heq
    simpa using congrArg List.getLast? heq
  have hfull := fun files r => full_token (t := ".") hs h hne files r
  exact ⟨⟨rfl, fun files r hr => ⟨(hfull files r).2.1.trans hr, (hfull files r).2.2⟩⟩,
    fun files r _ => (hfull files r).1.trans (Bool.and_false _).symm⟩

theorem Writes.operator (h : (symbol s).text = s.toList) : (operator s).Writes [symbol s] :=
  (writes_space.append (writes_token h)).append writes_space

theorem Writes.parens (h : a.Writes ws) :
    (parens a).Writes (punct .leftParen rfl :: ws ++ [punct .rightParen rfl]) :=
  ((writes_token rfl).append h.guarded).append (writes_token rfl)

theorem Writes.infixed {vs : List Written} (ha : a.Writes ws) (hb : b.Writes vs) (loc : Span)
    (h : (symbol s).text = s.toList) :
    (map loc ++ a ++ Layout.operator s ++ b).Writes (ws ++ symbol s :: vs) := by
  rw [← List.singleton_append, ← List.append_assoc]
  exact (((writes_map loc).append ha).append (.operator h)).append hb

/-- What is laid out alike where a bare `in` is allowed. -/
theorem Writes.of_eq (h : a.Writes ws) (heq : b false = a false) : b.Writes ws := by
  have hpieces : ∀ (files : List String) (r : Rendered),
      pieces {} files b r = pieces {} files a r := fun files r => by
    rw [pieces, heq]
    rfl
  refine ⟨⟨by rw [heq]; exact h.noIn, fun files r hr => ?_⟩, fun files r hr => ?_⟩
  · rw [hpieces]
    exact h.full files hr
  · rw [hpieces]
    exact h.pendingSemi files hr

theorem Writes.slot_of_lt (h : (Layout.parens (l Strength.sequence)).Writes ws)
    (hleast : e.strength < least) : (slot least e l).Writes ws :=
  h.of_eq (by simp [slot, hleast])

theorem Writes.slot_of_le (h : (l least).Writes ws) (hleast : least ≤ e.strength) :
    (slot least e l).Writes ws :=
  h.of_eq (by simp [slot, hleast])

theorem writes_ident {id : Ident} (h : isIdentifierName id.name = true) :
    (ident {} id).Writes [name id.name h] := by
  exact (writes_mark _ _).append (writes_token rfl)

end Layout

def Expr.logicalOp? : Expr → Option LogicalOp
  | .logical _ op _ _ => some op
  | _ => none

theorem Layout.logicalOperand_eq (op : LogicalOp) (e : Expr) (right : Bool) (l : Nat → Layout) :
    logicalOperand op e right l =
      if op == .nullish && e.logicalOp?.any (· != .nullish) then parens (l Strength.sequence)
      else slot (Strength.binary + op.precedence
        + (right && !(e.logicalOp? == some op && op != .nullish)).toNat) e l := by
  cases e with
  | logical loc op' a b => cases op <;> cases op' <;> cases right <;> rfl
  | _ => cases op <;> cases right <;> rfl

end Laconic
