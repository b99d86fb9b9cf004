import Laconic.Compress.Unreachable
import Laconic.Proofs.Tree.Rewriting

/-!
# The variables of removed code

A `var` belongs to the function around it wherever it stands there, so its names have to stay
when the code around it is removed.  What stays of a removed statement declares the names of
the statement in their order (`Stmt.varNames_hoisted`).  From this, what takes the place of an
`if`, a loop or a `switch` whose outcome is known declares the variables of the whole
statement: the parts that are not taken leave theirs behind.
-/

namespace Laconic

open Stmt

/-- The names that a declaration declares by `var`. -/
def VarDecl.varNames (d : VarDecl) : List String :=
  if d.kind == .var then d.boundNames.map (·.name) else []

def ForInit.varNames : ForInit → List String
  | .decl d => d.varNames
  | _ => []

def ForTarget.varNames : ForTarget → List String
  | .decl d => d.varNames
  | .pat _ => []

namespace Stmt

mutual

/-- The names that are declared by `var` in a statement, outside the functions and classes in
it.  Imports and exports are left out. -/
def varNames : Stmt → List String
  | .varDecl d => d.varNames
  | .block ⟨_, body⟩ => varNamesList body
  | .if _ _ c a => varNames c ++ varNamesOpt a
  | .for _ init _ _ body => init.varNames ++ varNames body
  | .forIn _ target _ body | .forOf _ _ target _ body => target.varNames ++ varNames body
  | .while _ _ body | .doWhile _ body _ | .labeled _ _ body | .with _ _ body => varNames body
  | .switch _ _ cases => varNamesCases cases
  | .try _ ⟨_, b⟩ h f => varNamesList b ++ varNamesHandler h ++ varNamesBlock f
  | _ => []

def varNamesOpt : Option Stmt → List String
  | none => []
  | some s => varNames s

def varNamesList : List Stmt → List String
  | [] => []
  | s :: rest => varNames s ++ varNamesList rest

def varNamesCases : List SwitchCase → List String
  | [] => []
  | ⟨_, _, body⟩ :: rest => varNamesList body ++ varNamesCases rest

def varNamesHandler : Option Handler → List String
  | none => []
  | some ⟨_, _, ⟨_, body⟩⟩ => varNamesList body

def varNamesBlock : Option Block → List String
  | none => []
  | some ⟨_, body⟩ => varNamesList body

end

attribute [local simp] varNames varNamesOpt varNamesList varNamesCases varNamesHandler varNamesBlock

/-! ## What stays of removed statements -/

@[simp] theorem varNamesList_append (a b : List Stmt) :
    varNamesList (a ++ b) = varNamesList a ++ varNamesList b := by
  induction a with
  | nil => rfl
  | cons s a ih => simp [varNamesList, ih]

@[simp] theorem varNames_declaring (kind : VarKind) (names : List Ident) (loc : Span) :
    varNames (declaring kind names loc) = if kind == .var then names.map (·.name) else [] := by
  simp [varNames, declaring, VarDecl.varNames, VarDecl.boundNames, List.flatMap_map, Pat.boundNames]

@[simp] theorem varNamesList_bare (d : VarDecl) (kind : VarKind) :
    varNamesList (d.bare kind) = if kind == .var then d.boundNames.map (·.name) else [] := by
  unfold VarDecl.bare
  split
  · next h => simp [varNamesList, List.isEmpty_iff.mp h]
  · simp [varNamesList]

@[simp] theorem varNamesList_bareVar (d : VarDecl) : varNamesList d.bareVar = d.varNames := by
  unfold VarDecl.bareVar VarDecl.varNames
  split <;> simp [varNamesList]

@[simp] theorem varNamesList_headInit (init : ForInit) :
    varNamesList init.hoisted = init.varNames := by
  cases init <;> simp [ForInit.hoisted, ForInit.varNames, varNamesList]

@[simp] theorem varNamesList_headTarget (target : ForTarget) :
    varNamesList target.hoisted = target.varNames := by
  cases target <;> simp [ForTarget.hoisted, ForTarget.varNames, varNamesList]

theorem varNames_hoisted (strict direct : Bool) (s : Stmt) :
    varNamesList (hoisted strict direct s) = varNames s := by
  revert direct s
  apply hoisted.induct strict
    (fun direct s => varNamesList (hoisted strict direct s) = varNames s)
    (fun b => varNamesList (hoistedBlock strict b) = varNamesBlock b)
    (fun body => varNamesList (hoistedList strict body) = varNamesList body)
    (fun h => varNamesList (hoistedHandler strict h) = varNamesHandler h)
    (fun cases => varNamesList (hoistedCases strict cases) = varNamesCases cases)
    (fun s => varNamesList (hoistedOpt strict s) = varNamesOpt s)
  all_goals
    intros
    simp only [hoisted, hoistedBlock, hoistedList, hoistedHandler, hoistedCases, hoistedOpt,
      varNames, varNamesBlock, varNamesHandler, varNamesCases, varNamesOpt]
  all_goals simp_all [varNamesList, varNames, VarDecl.varNames]

end Stmt

/-! ## What takes the place of statements -/

namespace Compressor

variable {c : Compressor}

theorem varNames_effectsOf (e : Expr) : varNamesList (c.effectsOf e) = [] := by
  unfold effectsOf
  cases c.purity.dropUnused e <;> rfl

theorem varNames_unreached (s : Stmt) :
    Gives (c.unreached s) fun kept => varNamesList kept = s.varNames := by
  unfold unreached
  split
  · exact .pure rfl
  · exact .pure rfl
  · have hrest : Gives (do return s.hoisted (← isStrict) true) fun kept =>
        varNamesList kept = s.varNames :=
      Gives.bind .unknown fun strict _ => .pure (s.varNames_hoisted strict true)
    exact .ite (fun _ => Gives.bind .unknown fun _ _ => hrest) fun _ => hrest

theorem varNames_dropUnreachable (list : List Stmt) :
    Gives (c.dropUnreachable list) fun kept => varNamesList kept = varNamesList list := by
  have hafter : ∀ rest : List Stmt, Gives (rest.mapM c.unreached) fun lists =>
      varNamesList lists.flatten = varNamesList rest := by
    intro rest
    induction rest with
    | nil => exact .pure rfl
    | cons s rest ih =>
      rw [List.mapM_cons]
      exact (varNames_unreached s).two ih fun kept lists ⟨hkept, hlists⟩ => by
        simp [varNamesList, hkept, hlists]
  induction list with
  | nil => exact .pure rfl
  | cons s rest ih =>
    rw [dropUnreachable]
    refine .ite (fun _ => (hafter rest).one ?_) fun _ => ih.one ?_
    · intro lists hlists
      rw [varNamesList, varNamesList, hlists]
    · intro kept hkept
      rw [varNamesList, varNamesList, hkept]

theorem varNames_untaken (s : Option Stmt) :
    Gives (c.untaken s) fun kept => varNamesList kept = varNamesOpt s := by
  cases s with
  | none => exact .pure rfl
  | some s =>
    refine .ite (fun hempty => .pure ?_) fun _ => Gives.bind .unknown fun _ _ =>
      Gives.bind .unknown fun strict _ => .pure (s.varNames_hoisted strict false)
    cases s with
    | empty => rfl
    | _ => cases hempty

/-- Statements declare just these variables. -/
def Declare (list : List Stmt) (names : List String) : Prop :=
  ∀ x, x ∈ varNamesList list ↔ x ∈ names

/-- A computation gives statements that declare some variables, and what is left of the statement
that it takes apart; or it gives no statements, and then the statement is left as it was and
nothing else has changed. -/
structure Replaces {α : Type} (m : Compressing (Option (List Stmt) × α)) (s : α)
    (names : List String) : Prop where
  declare : Gives m fun r => ∀ list, r.1 = some list → Declare list names
  unchanged : ∀ p, (m.run p).run.1.1 = none → (m.run p).run = ((none, s), p)

theorem Replaces.nothing {α : Type} {s : α} {names : List String} :
    Replaces (return (none, s)) s names :=
  ⟨.pure (by simp), fun _ _ => rfl⟩

theorem replaces_pruneIf? (s : IfStmt) : Replaces (c.pruneIf? s) s s.toStmt.varNames := by
  obtain ⟨loc, test, consequent, alternate⟩ := s
  have hcovers : ∀ (kept dropped : Option Stmt) (hoisted : List Stmt),
      (kept, dropped) = (some consequent, alternate)
        ∨ (kept, dropped) = (alternate, some consequent) →
      Stmt.varNamesList hoisted = Stmt.varNamesOpt dropped →
      Declare (c.effectsOf test ++ hoisted ++ kept.toList)
        (Stmt.if loc test consequent alternate).varNames := by
    rintro kept _ hoisted hbranches hnames x
    have hopt : Stmt.varNamesList kept.toList = Stmt.varNamesOpt kept := by
      cases kept <;> simp [Stmt.varNamesList, Stmt.varNamesOpt]
    rcases hbranches with ⟨⟨⟩⟩ | ⟨⟨⟩⟩
    · simp only [Stmt.varNamesList_append, varNames_effectsOf, hnames, hopt, Stmt.varNames,
        Stmt.varNamesOpt, List.nil_append, List.mem_append, or_comm]
    · simp only [Stmt.varNamesList_append, varNames_effectsOf, hnames, hopt, Stmt.varNames,
        Stmt.varNamesOpt, List.nil_append, List.mem_append]
  unfold pruneIf?
  split
  · exact .nothing
  · next taken _ =>
    refine ⟨?_, nofun⟩
    refine (varNames_untaken _).bind fun hoisted hnames => .pure ?_
    rintro _ ⟨⟩
    refine hcovers _ _ _ ?_ hnames
    cases taken with
    | false => exact .inr rfl
    | true => exact .inl rfl

theorem replaces_pruneLoop? (s : ForStmt) : Replaces (c.pruneLoop? s) s s.toStmt.varNames := by
  obtain ⟨loc, init, test, update, body⟩ := s
  have hhead : ∀ head, c.headEffects? init = some head →
      Stmt.varNamesList head = init.varNames := by
    intro head h
    unfold headEffects? at h
    split at h
    · cases h
      rfl
    · cases h
      exact varNames_effectsOf _
    · split at h
      · cases h
        simp [Stmt.varNamesList, Stmt.varNames, ForInit.varNames]
      · cases h
  unfold pruneLoop?
  split
  · next known _ _ =>
    split
    · exact .nothing
    · next head hheadEq =>
      refine ⟨?_, by split <;> nofun⟩
      have hrest : Gives (do
          return (some (head ++ c.effectsOf known ++ body.hoisted (← isStrict) false),
            (⟨loc, .none, none, update, body⟩ : ForStmt)))
          fun r => ∀ list, r.1 = some list →
            Declare list (Stmt.for loc init test update body).varNames := by
        refine Gives.bind .unknown fun strict _ => .pure ?_
        rintro _ ⟨⟩ x
        simp [hhead head hheadEq, varNames_effectsOf, Stmt.varNames_hoisted, Stmt.varNames]
      exact .ite (fun _ => Gives.bind .unknown fun _ _ => hrest) fun _ => hrest
  · exact .nothing

namespace Taking

variable {strict : Bool} {t t' : Taking}

/-- The variables that are declared by what is taken of a `switch`, and what stays of the rest. -/
def varNames (t : Taking) : List String := varNamesList (t.hoisted ++ t.taken)

theorem mem_step {s : Stmt} (h : t.step strict s = some t') (x : String) :
    x ∈ t'.varNames ↔ x ∈ t.varNames ∨ x ∈ s.varNames := by
  unfold Taking.step at h
  split at h
  · cases h
    simp [varNames, Stmt.varNames_hoisted, or_assoc, or_comm]
  · split at h
    · cases h
      simp [varNames, Stmt.varNames]
    · split at h
      · cases h
      · cases h
        simp [varNames, Stmt.varNamesList, or_assoc]

theorem mem_foldlM {body : List Stmt} (h : body.foldlM (Taking.step strict) t = some t')
    (x : String) : x ∈ t'.varNames ↔ x ∈ t.varNames ∨ x ∈ varNamesList body := by
  induction body generalizing t with
  | nil =>
    cases h
    simp [varNamesList]
  | cons s rest ih =>
    obtain ⟨t₁, hstep, hrest⟩ := Option.bind_eq_some_iff.mp h
    rw [ih hrest, mem_step hstep, varNamesList, List.mem_append, or_assoc]

theorem mem_cases {start : Option Nat} {i : Nat} {clauses : List SwitchCase}
    (h : Taking.cases strict start i t clauses = some t') (x : String) :
    x ∈ t'.varNames ↔ x ∈ t.varNames ∨ x ∈ varNamesCases clauses := by
  induction clauses generalizing t i with
  | nil =>
    cases h
    simp [varNamesCases]
  | cons clause rest ih =>
    obtain ⟨_, _, body⟩ := clause
    obtain ⟨t₁, hbody, hrest⟩ := Option.bind_eq_some_iff.mp h
    -- taking may begin here, but that declares nothing
    have hbegin : ∀ b : Bool,
        (if b then { t with taking := true } else t).varNames = t.varNames := by
      intro b
      cases b <;> rfl
    rw [ih hrest, mem_foldlM hbody, hbegin, varNamesCases, List.mem_append, or_assoc]

end Taking

theorem declare_takenClauses? {strict : Bool} {s : SwitchStmt} {list : List Stmt}
    (h : c.takenClauses? strict s = some list) : Declare list s.toStmt.varNames := by
  obtain ⟨value, _, h⟩ := Option.bind_eq_some_iff.mp h
  obtain ⟨start, _, h⟩ := Option.bind_eq_some_iff.mp h
  obtain ⟨t, ht, h⟩ := Option.bind_eq_some_iff.mp h
  cases h
  intro x
  have htaken : varNamesList
      (if t.taken.any (·.isLexical) then [.block ⟨s.loc, t.taken⟩] else t.taken)
      = varNamesList t.taken := by
    split
    · simp [varNamesList, varNames]
    · rfl
  have hcases := Taking.mem_cases ht x
  rw [Taking.varNames, varNamesList_append] at hcases
  rw [varNamesList_append, htaken, hcases]
  simp [Taking.varNames, varNamesList, varNames, SwitchStmt.toStmt]

/-- Code that never runs is removed without its variables: a list of statements declares the
same variables when the code after a jump is gone, and so does what takes the place of an `if`,
a loop or a `switch`.  Where nothing takes its place, the statement is left unchanged. -/
theorem variables_kept (c : Compressor) :
    (∀ list, Gives (c.dropUnreachable list) fun kept =>
      Declare kept (varNamesList list))
    ∧ (∀ s : IfStmt, Replaces (c.pruneIf? s) s s.toStmt.varNames)
    ∧ (∀ s : ForStmt, Replaces (c.pruneLoop? s) s s.toStmt.varNames)
    ∧ (∀ loc test body, Replaces (c.pruneLoop? ⟨loc, .none, some test, none, body⟩)
      ⟨loc, .none, some test, none, body⟩ (Stmt.while loc test body).varNames)
    ∧ ∀ strict (s : SwitchStmt),
      Replaces (return c.pruneSwitch? strict s) s s.toStmt.varNames := by
  refine ⟨fun list => ?_, replaces_pruneIf?, replaces_pruneLoop?, fun loc test body => ?_, ?_⟩
  · exact (varNames_dropUnreachable list).mono fun kept h x => by rw [h]
  · exact replaces_pruneLoop? ⟨loc, .none, some test, none, body⟩
  · intro strict s
    refine ⟨.pure fun list h => declare_takenClauses? h, fun p hnone => ?_⟩
    exact congrArg (·, p) (Prod.ext hnone rfl)

end Compressor

end Laconic
