import Laconic.Proofs.Scope.Chain

/-!
# The events of programs

The events of every program fit: scopes are closed in the order in which they are
opened, and the name of a function or class expression is declared right at the
start of its scope.  Each kind of node gives a list of events that fits wherever
it stands (`Fit`), and such lists can be put one after the other.
-/

namespace Laconic.ScopeEvent

variable {first second : List ScopeEvent} {kind : BindingKind} {inner : List ScopeEvent}

def Fit (events : List ScopeEvent) : Prop :=
  ∀ (depth : Nat) (fresh : Bool) (rest : List ScopeEvent), 0 < depth →
    fits depth false rest = true → fits depth fresh (events ++ rest) = true

/-- A scope that has just begun admits whatever another one does. -/
theorem fits_of_fits_false {depth : Nat} {events : List ScopeEvent} (fresh : Bool)
    (h : fits depth false events = true) : fits depth fresh events = true := by
  cases events with
  | nil => rfl
  | cons e rest =>
    cases e with
    | declare id kind exported loop =>
      simp only [fits, Bool.and_eq_true, Bool.false_or] at h ⊢
      exact ⟨⟨h.1.1, by simp [h.1.2]⟩, h.2⟩
    | _ => exact h

theorem fit_nil : Fit [] := fun _ fresh _ _ h => fits_of_fits_false fresh h

theorem fit_append {a b : List ScopeEvent} (ha : Fit a) (hb : Fit b) : Fit (a ++ b) := by
  intro depth fresh rest hdepth h
  rw [List.append_assoc]
  exact ha depth fresh _ hdepth (hb depth false rest hdepth h)

theorem fit_refer (id : Ident) (access : Access) (exported : Bool)
    {rest : List ScopeEvent} (h : Fit rest) : Fit (.refer id access exported :: rest) :=
  fun depth _ after hdepth hafter => h depth false after hdepth hafter

theorem fit_this : Fit [.this] := fun _ _ _ _ h => h

def isPlain (kind : BindingKind) : Bool := !kind.isShadowable && kind != .global

theorem isPlain_ofVarKind (kind : VarKind) : isPlain (.ofVarKind kind) = true := by
  cases kind <;> rfl

theorem isPlain_caught (ie8 : Bool) : isPlain (if ie8 then .var else .catchParam) = true := by
  cases ie8 <;> rfl

theorem fit_declare (id : Ident) (exported loop : Bool) (h : isPlain kind = true) :
    Fit [.declare id kind exported loop] := by
  intro depth fresh rest hdepth hrest
  simp only [isPlain, Bool.and_eq_true, Bool.not_eq_true', bne_iff_ne, ne_eq] at h
  have harguments : kind ≠ .arguments := by
    rintro rfl
    simp [BindingKind.isShadowable] at h
  simp [fits, h.1, h.2, harguments, hrest]

theorem fit_optDeclare (id : Option Ident) (exported : Bool) (h : isPlain kind = true) :
    Fit (optDeclare id kind exported) := by
  cases id with
  | none => exact fit_nil
  | some id => exact fit_declare id exported false h

theorem fit_within_named (kind : ScopeKind) (loc : Span) (strict : Bool) (name : Option Ident)
    {own : BindingKind} (hglobal : own ≠ .global) (harguments : own ≠ .arguments)
    (hfirst : Fit first) (hsecond : Fit second) :
    Fit (within kind loc strict (optDeclare name own false ++ first ++ second)) := by
  intro depth fresh rest hdepth hrest
  have hleave : fits (depth + 1) false (.leave :: rest) = true := by
    simp only [fits, Nat.add_sub_cancel, Bool.and_eq_true, decide_eq_true_eq]
    exact ⟨by omega, hrest⟩
  have hinner := fun fresh =>
    fit_append hfirst hsecond (depth + 1) fresh (.leave :: rest) (by omega) hleave
  cases name with
  | none => simpa [within, optDeclare, fits] using hinner true
  | some id => simpa [within, optDeclare, fits, hglobal, harguments] using hinner false

theorem fit_functionName (loc : Span) (strict : Bool) (name : Option Ident) (hfirst : Fit first)
    (hsecond : Fit second) :
    Fit (within .function loc strict (optDeclare name .functionName false ++ first ++ second)) :=
  fit_within_named .function loc strict name (by simp) (by simp) hfirst hsecond

theorem fit_className (loc : Span) (strict : Bool) (name : Option Ident) (hfirst : Fit first)
    (hsecond : Fit second) :
    Fit (within .class loc strict (optDeclare name .className false ++ first ++ second)) :=
  fit_within_named .class loc strict name (by simp) (by simp) hfirst hsecond

theorem fit_within (kind : ScopeKind) (loc : Span) (strict : Bool) (h : Fit inner) :
    Fit (within kind loc strict inner) := by
  intro depth fresh rest hdepth hrest
  have hinner := h (depth + 1) true (.leave :: rest) (by omega)
    (by simpa [fits, hdepth] using hrest)
  simpa [within, fits] using hinner

theorem fit_loopScope (lexical : Bool) (loc : Span) (h : Fit inner) :
    Fit (loopScope lexical loc inner) := by
  unfold loopScope
  split
  · exact fit_within .block loc false h
  · exact h

theorem fit_importSpecifiers (xs : List ImportSpecifier) : Fit (xs.map importSpecifier) := by
  induction xs with
  | nil => exact fit_nil
  | cons x rest ih =>
    have hfirst : Fit [importSpecifier x] := by
      cases x <;> exact fit_declare _ false false rfl
    exact fit_append hfirst ih

theorem fit_exportSpecifiers (xs : List ExportSpecifier) : Fit (xs.flatMap exportSpecifier) := by
  induction xs with
  | nil => exact fit_nil
  | cons x rest ih =>
    refine fit_append ?_ ih
    unfold exportSpecifier
    split
    · exact fit_refer _ _ _ fit_nil
    · exact fit_nil

attribute [local irreducible] within loopScope optDeclare

/-- The events of statements fit.  The induction follows the definition of the
events, one case for each kind of node. -/
theorem fit_stmts (ie8 : Bool) (body : List Stmt) : Fit (stmts ie8 body) := by
  apply stmts.induct ie8
    (fun e => Fit (expr ie8 e)) (fun e => Fit (optExpr ie8 e)) (fun k => Fit (propName ie8 k))
    (fun p => Fit (targetPat ie8 p)) (fun ps => Fit (targetProperties ie8 ps))
    (fun ps => Fit (targetElements ie8 ps)) (fun name c => Fit (classDef ie8 name c))
    (fun ms => Fit (members ie8 ms)) (fun body => Fit (stmts ie8 body))
    (fun exported s => Fit (stmt ie8 exported s)) (fun b => Fit (optBlock ie8 b))
    (fun b => Fit (block ie8 b)) (fun h => Fit (handler ie8 h)) (fun p => Fit (optParam ie8 p))
    (fun kind exported loop p =>
      isPlain kind = true → Fit (bindingPat ie8 kind exported loop p))
    (fun kind exported loop ps =>
      isPlain kind = true → Fit (bindingProperties ie8 kind exported loop ps))
    (fun kind exported loop ps =>
      isPlain kind = true → Fit (bindingElements ie8 kind exported loop ps))
    (fun cases => Fit (switchCases ie8 cases)) (fun t => Fit (forTarget ie8 t))
    (fun exported loop d => Fit (varDecl ie8 exported loop d))
    (fun kind exported loop ds =>
      isPlain kind = true → Fit (declarators ie8 kind exported loop ds))
    (fun i => Fit (forInit ie8 i)) (fun s => Fit (optStmt ie8 s))
    (fun name f => Fit (func ie8 name f)) (fun ps => Fit (params ie8 ps))
    (fun a => Fit (arrow ie8 a)) (fun ps => Fit (properties ie8 ps))
    (fun es => Fit (elements ie8 es)) (fun es => Fit (exprs ie8 es))
  case case6 =>
    intro f hie8 ih
    show Fit (if ie8 = true then _ else _)
    rw [if_pos hie8]
    exact fit_append (fit_optDeclare f.id false rfl) ih
  case case7 =>
    intro f hie8 ih
    show Fit (if ie8 = true then _ else _)
    rw [if_neg hie8]
    exact ih
  -- the cases that are left after others
  case case15 =>
    intro loc op before e hne ih
    cases e with
    | ident id => exact (hne id rfl).elim
    | _ => exact ih
  case case20 =>
    intro loc op e v hne ihe ihv
    cases e with
    | ident id => exact (hne id rfl).elim
    | _ => exact fit_append ihe ihv
  case case21 =>
    intro loc op p v _ hne ihp ihv
    cases p with
    | expr e => exact (hne e rfl).elim
    | _ => exact fit_append ihp ihv
  case case29 =>
    intro e
    intros
    cases e with
    | null | bool | num | str | bigint | regexp | super | metaProperty => exact fit_nil
    | _ => exfalso; solve_by_elim
  case case31 =>
    intro k hne
    cases k with
    | computed e => exact (hne e rfl).elim
    | _ => exact fit_nil
  case case78 =>
    intro s
    intros
    cases s with
    | exportNamed _ _ source =>
      cases source with
      | some => exact fit_nil
      | none => exfalso; solve_by_elim
    | «break» | «continue» | debugger | empty | directive | exportAll => exact fit_nil
    | _ => exfalso; solve_by_elim
  all_goals intros
  all_goals apply_rules [fit_append, fit_nil, fit_this, fit_refer, fit_functionName,
    fit_className, fit_within, fit_optDeclare, fit_loopScope, fit_declare, isPlain_ofVarKind,
    isPlain_caught, fit_importSpecifiers, fit_exportSpecifiers]

end Laconic.ScopeEvent
