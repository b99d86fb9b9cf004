import Laconic.Proofs.Tree.Shape
import Laconic.Proofs.Output.Writes

/-!
# Texts do not show places

The places of nodes go into the pieces of a layout, but nothing of them goes into a text
without comments.  `Layout.Alike` says that two layouts come to the same text; putting
layouts together keeps it.

An expression and its shape are laid out alike: the shape has other places, and its chains
of `&&` and of `||` are grouped to the left, which takes no parentheses either way.
-/

namespace Laconic

open Rendered

def Piece.isText : Piece → Bool
  | .map .. | .comments _ => false
  | _ => true

/-! ## Texts -/

/-- The same text, and no comments to come in the first one. -/
structure Rendered.Same (r r' : Rendered) : Prop where
  text : r.text = r'.text
  last : r.last = r'.last
  pendingSemi : r.pendingSemi = r'.pendingSemi
  comments : r.comments = []

namespace Rendered.Same

variable {r r' : Rendered}

variable (h : r.Same r')

include h

theorem raw (s : String) : (raw s r).Same (raw s r') where
  text := congrArg (· ++ s) h.text
  last := congrArg s.toList.getLastD h.last
  pendingSemi := h.pendingSemi
  comments := h.comments

theorem flushSemi : (flushSemi {} r).Same (flushSemi {} r') := by
  unfold Rendered.flushSemi
  rw [← h.pendingSemi]
  split
  · have hpaid : Same { r with pendingSemi := false } { r' with pendingSemi := false } :=
      ⟨h.text, h.last, rfl, h.comments⟩
    exact hpaid.raw ";"
  · exact h

theorem endStatement (s : String) : (endStatement {} s r).Same (endStatement {} s r') := by
  unfold Rendered.endStatement
  rw [← h.pendingSemi]
  split
  · exact h
  · split
    · exact ⟨h.text, h.last, rfl, h.comments⟩
    · exact h.flushSemi

theorem separate (s : String) : (separate s r).Same (separate s r') := by
  unfold Rendered.separate
  rw [← h.last]
  split
  · split
    · exact h.raw " "
    · exact h
  · exact h

theorem emitMap (files files' : List String) : (emitMap files r).Same (emitMap files' r') := by
  obtain ⟨htext, hlast, hsemi, hcomments⟩ := emitMap_eq files r
  obtain ⟨htext', hlast', hsemi', -⟩ := emitMap_eq files' r'
  exact ⟨htext.trans (h.text.trans htext'.symm), hlast.trans (h.last.trans hlast'.symm),
    hsemi.trans (h.pendingSemi.trans hsemi'.symm), hcomments.trans h.comments⟩

theorem piece (files files' : List String) (p : Piece) :
    (piece {} files r p).Same (if p.isText then piece {} files' r' p else r') := by
  cases p with
  | token s => exact (((h.endStatement s).separate s).emitMap files files').raw s
  | raw s => exact h.raw s
  | semi => exact ⟨h.text, h.last, rfl, h.comments⟩
  | indent | dedent => exact ⟨h.text, h.last, h.pendingSemi, h.comments⟩
  | map loc name =>
    show Same (if loc.isNowhere then r else { r with pendingMap := some (loc, name) }) r'
    split
    · exact h
    · exact ⟨h.text, h.last, h.pendingSemi, h.comments⟩
  | comments loc =>
    show Same (commentsBefore {} files loc r) r'
    unfold commentsBefore
    rw [h.comments]
    split
    · exact h
    · exact ⟨h.text, h.last, h.pendingSemi, rfl⟩
  | space | newline => exact h

theorem pieces (files files' : List String) (ps : List Piece) :
    (ps.foldl (Rendered.piece {} files) r).Same
      ((ps.filter Piece.isText).foldl (Rendered.piece {} files') r') := by
  rw [List.foldl_filter]
  induction ps generalizing r r' with
  | nil => exact h
  | cons p ps ih => exact ih (h.piece files files' p)

end Rendered.Same

/-! ## Layouts -/

namespace Layout

def bare (a : Layout) : Layout := fun noIn => ((a noIn).1.filter Piece.isText, (a noIn).2)

/-- Only these count. -/
theorem same_bare (files files' : List String) (a : Layout) :
    (Rendered.pieces {} files a {}).Same (Rendered.pieces {} files' a.bare {}) :=
  Rendered.Same.pieces ⟨rfl, rfl, rfl, rfl⟩ files files' (a false).1

def Alike (a b : Layout) : Prop := a.bare = b.bare

theorem bare_append (a b : Layout) : (a ++ b).bare = a.bare ++ b.bare :=
  funext fun _ => Prod.ext (List.filter_append _ _) rfl

namespace Alike

variable {a b c d : Layout} {as bs : List Layout}

theorem refl (a : Layout) : a.Alike a := rfl

theorem symm (h : a.Alike b) : b.Alike a := Eq.symm h

theorem trans (h : a.Alike b) (h' : b.Alike c) : a.Alike c := Eq.trans h h'

theorem append (h : a.Alike b) (h' : c.Alike d) : (a ++ c).Alike (b ++ d) := by
  unfold Alike at *
  rw [bare_append, bare_append, h, h']

theorem guarded (h : a.Alike b) : (guarded a).Alike (guarded b) := congrArg Layout.guarded h

theorem parens (h : a.Alike b) : (parens a).Alike (parens b) :=
  ((refl _).append h.guarded).append (refl _)

theorem onlyIf (h : a.Alike b) (c : Bool) : (onlyIf c a).Alike (onlyIf c b) := by
  cases c with
  | true => exact h
  | false => exact refl _

theorem map (loc loc' : Span) : (Layout.map loc).Alike (Layout.map loc') := rfl

theorem map_append (loc : Span) (a : Layout) : (Layout.map loc ++ a).Alike a := rfl

theorem concat (h : List.Forall₂ Alike as bs) : (concat as).Alike (concat bs) := by
  induction h with
  | nil => exact refl _
  | cons hab _ ih => exact hab.append ih

theorem separated (h : List.Forall₂ Alike as bs) (sep : Layout) :
    (separated sep as).Alike (separated sep bs) := by
  cases h with
  | nil => exact refl _
  | cons hab hrest =>
    refine hab.append (concat ?_)
    rw [List.forall₂_map_left_iff, List.forall₂_map_right_iff]
    exact hrest.imp fun _ _ h => (refl sep).append h

theorem slot {e e' : Expr} {l l' : Nat → Layout} (h : ∀ least, (l least).Alike (l' least))
    (hstrength : e'.strength = e.strength) (hin : e'.isInOperation = e.isInOperation)
    (least : Nat) : (slot least e l).Alike (slot least e' l') := by
  funext noIn
  simp only [bare, Layout.slot, hstrength, hin]
  split
  · exact congrFun (h _).parens noIn
  · exact congrFun (h _) noIn

end Alike

end Layout

/-! ## Shapes -/

namespace Expr

def isString : Expr → Bool
  | .str _ => true
  | _ => false

theorem outermost_shape (keeps : Bool) (e : Expr) :
    (e.shape keeps).strength = e.strength ∧ (e.shape keeps).isInOperation = e.isInOperation ∧
      (e.shape keeps).logicalOp? = e.logicalOp? ∧ (e.shape keeps).isFunction = e.isFunction ∧
      (e.shape keeps).isLet = e.isLet ∧ (e.shape keeps).isString = e.isString ∧
      Layout.isDigitsOnly (e.shape keeps) = Layout.isDigitsOnly e := by
  fun_cases shape keeps e <;> try exact ⟨rfl, rfl, rfl, rfl, rfl, rfl, rfl⟩
  · next op a b => cases op <;> exact ⟨rfl, rfl, rfl, rfl, rfl, rfl, rfl⟩
  · obtain ⟨x, y, h⟩ := exists_regroup _ _ _
    rw [h]
    exact ⟨rfl, rfl, rfl, rfl, rfl, rfl, rfl⟩

theorem containsCall_shape (keeps : Bool) (e : Expr) :
    (e.shape keeps).containsCall = e.containsCall := by
  induction e using containsCall.induct with
  | case1 => rfl
  | case2 loc optional o p ih => exact ih
  | case3 => rfl
  | case4 e hcall hmember htagged =>
    fun_cases shape keeps e <;> try rfl
    · obtain ⟨x, y, h⟩ := exists_regroup _ _ _
      rw [h]
      rfl
    · exact absurd rfl (hmember _ _ _ _)

end Expr

namespace Layout

open Laconic.Expr

variable {op : LogicalOp} {a b : Expr} {keeps : Bool} {least least' : Nat} {e : Expr}

section

variable (h : ∀ least, (inner {} least a).Alike (inner {} least (a.shape keeps)))

include h

theorem Alike.slot_shape
    (least : Nat) : (Layout.slot least a (inner {} · a)).Alike
      (Layout.slot least (a.shape keeps) (inner {} · (a.shape keeps))) :=
  slot h (outermost_shape keeps a).1 (outermost_shape keeps a).2.1 least

theorem Alike.logicalOperand_shape (right : Bool) :
    (logicalOperand op a right (inner {} · a)).Alike
      (logicalOperand op (a.shape keeps) right (inner {} · (a.shape keeps))) := by
  rw [logicalOperand_eq, logicalOperand_eq, (outermost_shape keeps a).2.2.1]
  split
  · exact (h _).parens
  · exact slot_shape h _

theorem Alike.callee_shape :
    (if a.containsCall then Layout.parens (inner {} Strength.sequence a)
      else Layout.slot Strength.call a (inner {} · a)).Alike
    (if (a.shape keeps).containsCall then Layout.parens (inner {} Strength.sequence (a.shape keeps))
      else Layout.slot Strength.call (a.shape keeps) (inner {} · (a.shape keeps))) := by
  rw [containsCall_shape]
  split
  · exact (h _).parens
  · exact slot_shape h _

end

theorem Alike.newArguments_shape (es : List Expr) {l l' : Layout} (h : l.Alike l') (needed : Bool) :
    (Layout.onlyIf (!es.isEmpty || needed) (Layout.parens l)).Alike
      (Layout.onlyIf (!(shapes keeps es).isEmpty || needed) (Layout.parens l')) := by
  rw [shapes_eq_map, List.isEmpty_map]
  exact h.parens.onlyIf _

theorem inner_eq_of_le (h : least ≤ Strength.new) (h' : least' ≤ Strength.new) (e : Expr) :
    inner {} least e = inner {} least' e := by
  cases e with
  | new loc pure e es =>
    show _ ++ Layout.onlyIf (!es.isEmpty || decide (Strength.new < least)) _
      = _ ++ Layout.onlyIf (!es.isEmpty || decide (Strength.new < least')) _
    rw [decide_eq_false (Nat.not_lt.mpr h), decide_eq_false (Nat.not_lt.mpr h')]
  | chain loc e => exact congrArg (Layout.map loc ++ ·) (inner_eq_of_le h h' e)
  | assign loc op p v => cases p <;> rfl
  | _ => rfl

theorem strength_ne (hop : op ≠ .nullish) (h : e.logicalOp? ≠ some op) :
    e.strength ≠ Strength.binary + op.precedence := by
  have hlevel : 12 ≤ Strength.binary + op.precedence ∧ Strength.binary + op.precedence ≤ 13 := by
    cases op <;> first | exact absurd rfl hop | decide
  have hother : e.strength < 12 ∨ 13 < e.strength →
    e.strength ≠ Strength.binary + op.precedence := by
    omega
  have hbinary : ∀ op : BinaryOp, 13 < Strength.binary + op.precedence := by
    intro op
    cases op <;> decide
  cases e with
  | logical loc op' a b =>
    intro heq
    have hprecedence : op'.precedence = op.precedence := Nat.add_left_cancel heq
    refine h (congrArg some ?_)
    cases op <;> cases op' <;> first | rfl | cases hprecedence
  | binary loc op' a b => exact hother (.inr (hbinary op'))
  | num loc x =>
    refine hother (.inr ?_)
    rw [strength]
    split
    · exact hbinary .div
    · split <;> decide
  | update loc op' before a =>
    refine hother (.inr ?_)
    cases before <;> simp only [strength] <;> decide
  | sequence | assign | arrow | yield | spread | conditional =>
    exact hother (.inl (by simp only [strength]; decide))
  | _ => exact hother (.inr (by simp only [strength]; decide))

theorem slot_congr {l : Nat → Layout} (hl : l least = l least')
    (hlt : e.strength < least ↔ e.strength < least') :
    Layout.slot least e l = Layout.slot least' e l := by
  funext noIn
  simp only [Layout.slot, hl, hlt]

theorem logicalOperand_side (hop : op ≠ .nullish) (e : Expr) :
    logicalOperand op e true (inner {} · e) = logicalOperand op e false (inner {} · e) := by
  rw [logicalOperand_eq, logicalOperand_eq]
  by_cases hsame : e.logicalOp? = some op
  · rw [hsame]
    cases op <;> first | rfl | exact absurd rfl hop
  · have hflag : (true && !(e.logicalOp? == some op && op != .nullish)) = true := by
      rw [beq_eq_false_iff_ne.mpr hsame]
      rfl
    have hlevel : Strength.binary + op.precedence + 1 ≤ Strength.new := by
      cases op <;> decide
    have hslot : Layout.slot (Strength.binary + op.precedence + 1) e (inner {} · e)
        = Layout.slot (Strength.binary + op.precedence) e (inner {} · e) := by
      refine slot_congr (inner_eq_of_le hlevel (Nat.le_of_succ_le hlevel) e) ?_
      have hne := strength_ne hop hsame
      omega
    rw [hflag]
    exact congrArg (ite _ _) hslot

theorem logicalOperand_same (hop : op ≠ .nullish) (loc : Span) (a b : Expr) (right : Bool)
    (l : Nat → Layout) :
    logicalOperand op (.logical loc op a b) right l = l (Strength.binary + op.precedence) := by
  rw [logicalOperand_eq]
  have hslot : Layout.slot (Strength.binary + op.precedence) (.logical loc op a b) l
      = l (Strength.binary + op.precedence) := by
    funext noIn
    simp [Layout.slot, strength, isInOperation]
  cases op <;> cases right <;> first | exact hslot | exact absurd rfl hop

theorem alike_logical (loc : Span) (op : LogicalOp) (a b : Expr) (least : Nat) :
    (inner {} least (.logical loc op a b)).Alike (logicalOperand op a false (inner {} · a)
      ++ (operator op.text ++ logicalOperand op b true (inner {} · b))) := by
  show (Layout.map loc ++ _ ++ _ ++ _).Alike _
  rw [append_assoc, append_assoc]
  exact .map_append loc _

theorem alike_regroup (op : LogicalOp) (a b : Expr) (loc : Span) (least : Nat) :
    (inner {} least (.logical loc op a b)).Alike (inner {} least (regroup op a b)) := by
  fun_induction regroup op a b generalizing loc least with
  | case1 loc' op' b c hsame ih =>
    obtain ⟨rfl, hop⟩ := hsame
    obtain ⟨x, y, hxy⟩ := exists_regroup op' a b
    refine (alike_logical ..).trans (.trans ?_ (alike_logical ..).symm)
    rw [logicalOperand_same hop, hxy, logicalOperand_same hop, ← hxy]
    have hleft := (ih loc (Strength.binary + op'.precedence)).symm.trans (alike_logical ..)
    rw [logicalOperand_side hop b] at hleft
    refine .trans ?_ (hleft.symm.append (.refl _))
    rw [append_assoc, append_assoc]
    exact (Alike.refl _).append ((Alike.refl _).append (alike_logical ..))
  | case2 loc' op' b c hother | case3 b hb => exact (alike_logical ..).trans (alike_logical ..).symm

mutual

theorem alike_shape (keeps : Bool) : ∀ (e : Expr) (least : Nat),
    (inner {} least e).Alike (inner {} least (e.shape keeps))
  | .num .., _ | .str _, _ | .this _, _ | .ident _, _ => rfl
  | .unary _ _ e, _ =>
    (((Alike.map _ _).append (.refl _)).append (.refl _)).append
      (.slot_shape (alike_shape keeps e) _)
  | .update _ _ false e, _ =>
    (Alike.map _ _).append ((Alike.slot_shape (alike_shape keeps e) _).append (.refl _))
  | .update _ _ true e, _ =>
    (Alike.map _ _).append ((Alike.refl _).append (.slot_shape (alike_shape keeps e) _))
  | .binary _ _ a b, _ =>
    (((Alike.map _ _).append (.slot_shape (alike_shape keeps a) _)).append (.refl _)).append
      (.slot_shape (alike_shape keeps b) _)
  | .logical _ op a b, least =>
    .trans
      ((((Alike.map _ .nowhere).append (.logicalOperand_shape (alike_shape keeps a) false)).append
        (.refl _)).append (.logicalOperand_shape (alike_shape keeps b) true))
      (alike_regroup op _ _ _ least)
  | .conditional _ t c a, _ =>
    (((((Alike.map _ _).append (.slot_shape (alike_shape keeps t) _)).append (.refl _)).append
      (Alike.slot_shape (alike_shape keeps c) _).guarded).append (.refl _)).append
      (.slot_shape (alike_shape keeps a) _)
  | .assign _ _ (.expr e) v, _ =>
    (((Alike.map _ _).append (.slot_shape (alike_shape keeps e) _)).append (.refl _)).append
      (.slot_shape (alike_shape keeps v) _)
  | .sequence _ es, _ => (Alike.map _ _).append (.separated (alike_shapes keeps es _) _)
  | .member _ optional e p, _ =>
    ((Alike.map _ _).append (.slot_shape (alike_shape keeps e) _)).append
      (alike_memberShape keeps p optional (outermost_shape keeps e).2.2.2.2.2.2)
  | .call _ _ _ e es, _ =>
    (((Alike.map _ _).append (.slot_shape (alike_shape keeps e) _)).append (.refl _)).append
      (Alike.separated (alike_shapes keeps es _) _).parens
  | .new _ _ e es, _ =>
    ((((Alike.map _ _).append (.refl _)).append (.refl _)).append
      (.callee_shape (alike_shape keeps e))).append
      (.newArguments_shape es (.separated (alike_shapes keeps es _) _) _)
  | .assign _ _ (.ident _) _, _ | .assign _ _ (.array ..) _, _ | .assign _ _ (.object ..) _, _
  | .assign _ _ (.rest ..) _, _ | .assign _ _ (.assign ..) _, _ | .null _, _ | .bool .., _
  | .bigint .., _ | .regexp .., _ | .template .., _ | .super _, _ | .array .., _ | .object .., _
  | .function _, _ | .arrow _, _ | .class _, _ | .chain .., _ | .tagged .., _ | .spread .., _
  | .yield .., _ | .await .., _ | .importCall .., _ | .metaProperty .., _ => .refl _

theorem alike_shapes (keeps : Bool) : ∀ (es : List Expr) (least : Nat),
    List.Forall₂ Alike (exprs {} least es) (exprs {} least (shapes keeps es))
  | [], _ => .nil
  | e :: es, least => .cons (.slot_shape (alike_shape keeps e) least) (alike_shapes keeps es least)

theorem alike_memberShape (keeps : Bool) {digits digits' : Bool} : ∀ (p : PropName)
    (optional : Bool), digits' = digits →
    (member {} optional digits p).Alike (member {} optional digits' (p.shape keeps))
  | .ident _, _, rfl => .append (.refl _) rfl
  | .computed e, _, rfl =>
    (((Alike.refl _).append (.refl _)).append
      (Alike.slot_shape (alike_shape keeps e) _).guarded).append (.refl _)
  | .privateName .., _, rfl | .str _, _, rfl | .num .., _, rfl => .refl _

end

end Layout

/-! ## Statements -/

namespace Expr

theorem startsStatement_regroup (op : LogicalOp) (a b : Expr) :
    (regroup op a b).startsStatement {} =
      (decide (Strength.binary + op.precedence ≤ a.strength) && a.startsStatement {}) := by
  fun_induction regroup op a b with
  | case1 loc op' b c hsame ih =>
    obtain ⟨rfl, -⟩ := hsame
    obtain ⟨x, y, hxy⟩ := exists_regroup op' a b
    rw [startsStatement, ih, hxy]
    simp [strength]
  | case2 | case3 => rw [startsStatement]

mutual

theorem startsStatement_shape (keeps : Bool) : ∀ e : Expr,
    (e.shape keeps).startsStatement {} = e.startsStatement {}
  | .member _ _ e p => by
    obtain ⟨hstrength, -, -, -, hlet, -⟩ := outermost_shape keeps e
    have ih := startsStatement_shape keeps e
    cases p <;> simp only [shape, PropName.shape, startsStatement, ih, hstrength, hlet]
  | .call _ _ _ e _ => by
    obtain ⟨hstrength, -, -, hfunction, -⟩ := outermost_shape keeps e
    rw [shape, startsStatement, startsStatement, startsStatement_shape keeps e,
      hstrength, hfunction]
  | .binary _ _ e _ | .conditional _ e _ _ | .update _ _ _ e | .assign _ _ (.expr e) _ => by
    rw [shape, startsStatement, startsStatement, startsStatement_shape keeps e,
      (outermost_shape keeps e).1]
  | .logical _ op a b => by
    rw [shape, startsStatement_regroup, startsStatement, startsStatement_shape keeps a,
      (outermost_shape keeps a).1]
  | .sequence _ es => by
    rw [shape, startsStatement, startsStatement, firstStartsStatement_shape keeps es]
  | .num .. | .str _ | .this _ | .ident _ | .unary .. | .new .. | .assign _ _ (.ident _) _
  | .assign _ _ (.array ..) _ | .assign _ _ (.object ..) _ | .assign _ _ (.rest ..) _
  | .assign _ _ (.assign ..) _ | .null _ | .bool .. | .bigint .. | .regexp .. | .template ..
  | .super _ | .array .. | .object .. | .function _ | .arrow _ | .class _ | .chain .. | .tagged ..
  | .spread .. | .yield .. | .await .. | .importCall .. | .metaProperty .. => rfl

theorem firstStartsStatement_shape (keeps : Bool) : ∀ es : List Expr,
    firstStartsStatement {} (shapes keeps es) = firstStartsStatement {} es
  | [] => rfl
  | e :: _ => by
    rw [shapes, firstStartsStatement, firstStartsStatement, startsStatement_shape keeps e,
      (outermost_shape keeps e).1]

end

end Expr

namespace Layout

open Laconic.Expr

theorem stmt_expr (loc : Span) (e : Expr) : stmt {} (.expr loc e) = Layout.lead loc
    ++ (if e.isString || e.startsStatement {} then Layout.parens (inner {} Strength.sequence e)
      else Layout.slot Strength.sequence e (inner {} · e)) ++ semi := by
  cases e <;> rfl

theorem alike_stmt_shape (keeps : Bool) (loc loc' : Span) (e : Expr) :
    (stmt {} (.expr loc e)).Alike (stmt {} (.expr loc' (e.shape keeps))) := by
  obtain ⟨-, -, -, -, -, hstring, -⟩ := outermost_shape keeps e
  rw [stmt_expr, stmt_expr, hstring, startsStatement_shape]
  refine .append (.append rfl ?_) (.refl _)
  split
  · exact (alike_shape keeps e _).parens
  · exact .slot_shape (alike_shape keeps e) _

theorem alike_of_readsAs {e e' : Expr} (h : e.ReadsAs e') (loc loc' : Span) :
    (stmt {} (.expr loc e)).Alike (stmt {} (.expr loc' e')) := by
  have hread := alike_stmt_shape true loc' loc' e'
  rw [h] at hread
  exact (alike_stmt_shape false loc loc' e).trans hread.symm

theorem alike_of_forall₂ {ss ss' : List Stmt} (h : List.Forall₂ Stmt.ReadsAs ss ss') :
    List.Forall₂ Alike (stmts {} ss) (stmts {} ss') := by
  induction h with
  | nil => exact .nil
  | @cons s s' _ _ hs _ ih =>
    refine .cons ?_ ih
    cases s <;> cases s' <;> first | exact hs.elim | exact alike_of_readsAs hs _ _

end Layout

end Laconic
