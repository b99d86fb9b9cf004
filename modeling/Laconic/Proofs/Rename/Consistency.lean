import Laconic.Proofs.Rename.Session

/-!
# Property names stay consistent

A property has no scope: its name means the same wherever it stands.  Renaming
properties therefore changes all uses of a name alike, and keeps different names
different.  The one exception are the operands of `++` and `--`, which keep their
names.

The uses of a program are read off its nodes in order.  The operand of a count is the
node right after the count, so a use is flagged by a look at the node before it.
-/

namespace Laconic

open Nodes Properties

namespace Properties

variable {e : Expr} {n : String} {counted : Bool}

/-! ## Uses -/

/-- Whether a node counts something up or down. -/
def isCount : Node → Bool
  | .expr (.update ..) => true
  | _ => false

/-- The names of properties in nodes, in order, each with a flag that says whether it is
that of the operand of a count.  The node before the first one is a count if `counted`
is set. -/
def usesFrom (counted : Bool) : List Node → List (String × Bool)
  | [] => []
  | n :: rest => ((nameIn? n).map fun e => (e.1, counted)).toList ++ usesFrom (isCount n) rest

/-- The names of properties in a program. -/
def uses (p : Program) : List (String × Bool) := usesFrom false p.nodes

/-- A use with its new name: the operand of a count keeps its own. -/
def renamedUse (r : Renaming) (u : String × Bool) : String × Bool :=
  (if u.2 then u.1 else newName r u.1, u.2)

/-- Nodes that have the uses of others with new names, whatever comes after them. -/
def Follows (r : Renaming) (ns ns' : List Node) : Prop :=
  ∃ us, ∀ rest, usesFrom false (ns ++ rest) = us ++ usesFrom false rest
    ∧ usesFrom false (ns' ++ rest) = us.map (renamedUse r) ++ usesFrom false rest

namespace Follows

variable {r : Renaming} {ns ns' ms ms' : List Node} {m m' n n' : Node}

theorem nil : Follows r [] [] := ⟨[], fun _ => ⟨rfl, rfl⟩⟩

theorem append (h : Follows r ns ns') (k : Follows r ms ms') :
    Follows r (ns ++ ms) (ns' ++ ms') := by
  obtain ⟨us, hus⟩ := h
  obtain ⟨vs, hvs⟩ := k
  refine ⟨us ++ vs, fun rest => ⟨?_, ?_⟩⟩
  · rw [List.append_assoc, (hus _).1, (hvs _).1, List.append_assoc]
  · rw [List.append_assoc, (hus _).2, (hvs _).2, List.map_append, List.append_assoc]

/-- A node that is no count and, after no count, has the use of another with its new
name. -/
theorem cons (h : Follows r ns ns') (hcount : isCount n = false) (hcount' : isCount n' = false)
    (hname : nameIn? n' = (nameIn? n).map fun e => (newName r e.1, e.2)) :
    Follows r (n :: ns) (n' :: ns') := by
  obtain ⟨us, hus⟩ := h
  refine ⟨((nameIn? n).map fun e => (e.1, false)).toList ++ us, fun rest => ?_⟩
  simp only [List.cons_append, usesFrom, hcount, hcount', hname, (hus rest).1, (hus rest).2]
  cases nameIn? n <;> exact ⟨rfl, rfl⟩

theorem count (h : Follows r ns ns') (hn : nameIn? n = none) (hcount : isCount n = true)
    (hn' : nameIn? n' = none) (hcount' : isCount n' = true) (hm : isCount m = false)
    (hm' : isCount m' = false) (hname : nameIn? m' = nameIn? m) :
    Follows r (n :: m :: ns) (n' :: m' :: ns') := by
  obtain ⟨us, hus⟩ := h
  refine ⟨((nameIn? m).map fun e => (e.1, true)).toList ++ us, fun rest => ?_⟩
  simp only [List.cons_append, usesFrom, hn, hn', hcount, hcount', hm, hm', hname, (hus rest).1,
    (hus rest).2]
  cases nameIn? m <;> exact ⟨rfl, rfl⟩

theorem countSilent (h : Follows r (m :: ns) (m' :: ns')) (hn : nameIn? n = none)
    (hcount : isCount n = true) (hn' : nameIn? n' = none) (hcount' : isCount n' = true)
    (hm : nameIn? m = none) (hm' : nameIn? m' = none) :
    Follows r (n :: m :: ns) (n' :: m' :: ns') := by
  obtain ⟨us, hus⟩ := h
  refine ⟨us, fun rest => ?_⟩
  have hrest := hus rest
  simp only [List.cons_append, usesFrom, hn, hn', hcount, hcount', hm, hm'] at hrest ⊢
  exact hrest

end Follows

/-! ## Names of properties -/

/-- The change of names by a renaming. -/
def change (r : Renaming) : NameMap Id :=
  { key := fun k => pure (renamedKey r k), access := fun k => pure (renamedAccess r k) }

theorem value_renamedString (r : Renaming) (lit : StringLit) :
    (renamedString r lit).value = newName r lit.value := by
  unfold renamedString newName
  cases r.find? lit.value <;> rfl

def string? : Expr → Option StringLit
  | .str lit => some lit
  | _ => none

theorem string?_eq_some {lit : StringLit} (h : string? e = some lit) : e = .str lit := by
  cases e with
  | str lit' =>
    cases h
    rfl
  | _ => cases h

theorem string?_change (r : Renaming) (e : Expr) : string? ((change r).expr e) = string? e := by
  cases e with
  | update loc op before e => cases e <;> rfl
  | _ => rfl

theorem nameIn?_computed (loc : Span) (optional : Bool) (o e : Expr) :
    nameIn? (.expr (.member loc optional o (.computed e)))
      = (string? e).map fun lit => (lit.value, true) := by
  cases e <;> rfl

theorem renamedAccess_computed {r : Renaming} (h : string? e = none) :
    renamedAccess r (.computed e) = .computed e := by
  cases e with
  | str lit => cases h
  | _ => rfl

section Walk

variable (r : Renaming)

theorem nameIn?_access (loc : Span) (optional : Bool) (o o' : Expr) (k : PropName) :
    nameIn? (.expr (.member loc optional o' ((change r).propName (change r).access k)))
      = (nameIn? (.expr (.member loc optional o k))).map fun e => (newName r e.1, e.2) := by
  cases k with
  | computed e =>
    have hstring := string?_change r e
    show nameIn? (.expr (.member loc optional o' (renamedAccess r (.computed ((change r).expr e)))))
      = _
    rw [nameIn?_computed]
    cases he : string? e with
    | none =>
      rw [he] at hstring
      rw [renamedAccess_computed hstring, nameIn?_computed, hstring]
      rfl
    | some lit =>
      cases string?_eq_some he
      show some ((renamedString r lit).value, true) = some (newName r lit.value, true)
      rw [value_renamedString]
  | _ => rfl

theorem nameIn?_counted (loc : Span) (optional : Bool) (o o' : Expr) (k : PropName) :
    nameIn? (.expr (.member loc optional o' ((change r).propName (change r).counted k)))
      = nameIn? (.expr (.member loc optional o k)) := by
  cases k with
  | computed e =>
    show nameIn? (.expr (.member loc optional o' (.computed ((change r).expr e)))) = _
    rw [nameIn?_computed, nameIn?_computed, string?_change]
  | _ => rfl

theorem nameIn?_key (k : PropName) :
    nameIn? (.key (renamedKey r k)) = (nameIn? (.key k)).map fun e => (newName r e.1, e.2) := by
  cases k with
  | str lit =>
    show some ((renamedString r lit).value, true) = some (newName r lit.value, true)
    rw [value_renamedString]
  | _ => rfl

theorem follows_imports (xs : List ImportSpecifier) :
    Follows r (xs.map importSpecifier)
      (List.map importSpecifier (xs.mapM (change r).importSpecifier : Id _)) := by
  induction xs with
  | nil => exact .nil
  | cons x rest ih =>
    rw [List.mapM_cons]
    cases x <;> exact ih.cons rfl rfl rfl

theorem follows_exports (xs : List ExportSpecifier) :
    Follows r (xs.flatMap exportSpecifier)
      (List.flatMap exportSpecifier (xs.mapM (change r).exportSpecifier : Id _)) := by
  induction xs with
  | nil => exact .nil
  | cons x rest ih =>
    rw [List.mapM_cons]
    obtain ⟨name, exported⟩ := x
    cases name with
    | ident id => exact ih.cons rfl rfl rfl
    | str lit => exact ih

abbrev Along {α : Type} (nodes : α → List Node) (change : α → Id α) (a : α) : Prop :=
  Follows r (nodes a) (nodes (change a))

theorem follows_access {e : Expr} (h : Along r expr (change r).expr e) :
    Along r member ((change r).propName (change r).access) (.computed e) := by
  show Follows r _ (member (renamedAccess r (.computed ((change r).expr e))))
  cases he : string? ((change r).expr e) with
  | none =>
    rw [renamedAccess_computed he]
    exact h
  | some lit =>
    rw [string?_change] at he
    cases string?_eq_some he
    exact Follows.nil.cons rfl rfl rfl

theorem follows_own (named : Bool) (id : Option Ident) :
    Follows r (optIdent id) (optIdent ((change r).ownName named id)) := by
  cases id with
  | none => cases named <;> exact .nil
  | some id => cases named <;> exact Follows.nil.cons rfl rfl rfl

/-- The operand of a count that is no access has no name. -/
theorem follows_count {loc : Span} {op : UpdateOp} {before : Bool} {e : Expr}
    (h : Along r expr (change r).expr e)
    (hmember : ∀ loc optional o k, e ≠ .member loc optional o k) :
    Along r expr (change r).expr (.update loc op before e) := by
  cases e with
  | member => exact absurd rfl (hmember _ _ _ _)
  | update _ _ _ e => cases e <;> exact h.countSilent rfl rfl rfl rfl rfl rfl
  | assign _ _ p _ => cases p <;> exact h.countSilent rfl rfl rfl rfl rfl rfl
  | _ => exact h.countSilent rfl rfl rfl rfl rfl rfl

mutual

theorem follows_expr : ∀ e, Along r expr (change r).expr e
  | .null _ | .bool .. | .num .. | .str _ | .bigint .. | .regexp .. | .super _ | .metaProperty ..
  | .this _ => Follows.nil.cons rfl rfl rfl
  | .ident _ => (Follows.nil.cons rfl rfl rfl).cons rfl rfl rfl
  | .template _ _ es => (follows_exprs es).cons rfl rfl rfl
  | .array _ es => (follows_elements es).cons rfl rfl rfl
  | .object _ ps => (follows_properties ps).cons rfl rfl rfl
  | .function f => (follows_func true f).cons rfl rfl rfl
  | .arrow a => (follows_arrow a).cons rfl rfl rfl
  | .class c => (follows_class c).cons rfl rfl rfl
  | .unary _ _ e => (follows_expr e).cons rfl rfl rfl
  | .update _ _ _ e => by
    have h := follows_expr e
    cases e with
    | member loc optional o k =>
      refine ((follows_expr o).append (follows_propName k).2.2).count rfl rfl rfl rfl rfl rfl ?_
      exact nameIn?_counted r loc optional o _ k
    | _ => exact follows_count r h nofun
  | .binary _ _ a b => ((follows_expr a).append (follows_expr b)).cons rfl rfl rfl
  | .logical _ _ a b => ((follows_expr a).append (follows_expr b)).cons rfl rfl rfl
  | .conditional _ t c a =>
    (((follows_expr t).append (follows_expr c)).append (follows_expr a)).cons rfl rfl rfl
  | .assign _ _ p v => by
    have hparts := (follows_pat p).append (follows_expr v)
    cases p <;> exact hparts.cons rfl rfl rfl
  | .sequence _ es => (follows_exprs es).cons rfl rfl rfl
  | .member loc optional o k =>
    ((follows_expr o).append (follows_propName k).2.1).cons rfl rfl
      (nameIn?_access r loc optional o _ k)
  | .call _ _ _ callee es => ((follows_expr callee).append (follows_exprs es)).cons rfl rfl rfl
  | .new _ _ callee es => ((follows_expr callee).append (follows_exprs es)).cons rfl rfl rfl
  | .chain _ e => (follows_expr e).cons rfl rfl rfl
  | .tagged _ tag _ _ es => ((follows_expr tag).append (follows_exprs es)).cons rfl rfl rfl
  | .spread _ e => (follows_expr e).cons rfl rfl rfl
  | .yield _ _ e => (follows_optExpr e).cons rfl rfl rfl
  | .await _ e => (follows_expr e).cons rfl rfl rfl
  | .importCall _ e options => ((follows_expr e).append (follows_optExpr options)).cons rfl rfl rfl

theorem follows_optExpr : ∀ e, Along r optExpr (change r).optExpr e
  | none => .nil
  | some e => follows_expr e

theorem follows_exprs : ∀ es, Along r exprs (change r).exprs es
  | [] => .nil
  | e :: rest => (follows_expr e).append (follows_exprs rest)

theorem follows_elements : ∀ es, Along r elements (change r).elements es
  | [] => .nil
  | none :: rest => follows_elements rest
  | some e :: rest => (follows_expr e).append (follows_elements rest)

/-- The name of a property where it is defined, where it is accessed and where it is counted. -/
theorem follows_propName : ∀ k, Along r propName ((change r).propName (change r).key) k
    ∧ Along r member ((change r).propName (change r).access) k
    ∧ Along r member ((change r).propName (change r).counted) k
  | .computed e =>
    ⟨(follows_expr e).cons rfl rfl rfl, follows_access r (follows_expr e), follows_expr e⟩
  | .str lit => ⟨Follows.nil.cons rfl rfl (nameIn?_key r (.str lit)), .nil, .nil⟩
  | .ident _ | .privateName .. | .num .. => ⟨Follows.nil.cons rfl rfl rfl, .nil, .nil⟩

theorem follows_properties : ∀ ps, Along r properties (change r).properties ps
  | [] => .nil
  | .value _ key e :: rest =>
    ((follows_propName key).1.append (follows_expr e)).append (follows_properties rest)
  | .getter _ key f :: rest | .setter _ key f :: rest | .method _ key f :: rest =>
    ((follows_propName key).1.append (follows_func false f)).append (follows_properties rest)
  | .spread _ e :: rest => (follows_expr e).append (follows_properties rest)

theorem follows_func (named : Bool) : ∀ f, Along r func ((change r).func named) f
  | ⟨_, id, _, _, ps, ⟨_, body⟩⟩ => by
    refine Follows.cons ?_ rfl rfl rfl
    exact ((follows_own r named id).append (follows_pats ps)).append
      ((follows_stmts body).cons rfl rfl rfl)

theorem follows_arrow : ∀ a, Along r arrow (change r).arrow a
  | ⟨_, _, ps, .block ⟨_, body⟩⟩ => by
    refine Follows.cons ?_ rfl rfl rfl
    exact (follows_pats ps).append ((follows_stmts body).cons rfl rfl rfl)
  | ⟨_, _, ps, .expr e⟩ => ((follows_pats ps).append (follows_expr e)).cons rfl rfl rfl

theorem follows_block : ∀ b, Along r block (change r).block b
  | ⟨_, body⟩ => (follows_stmts body).cons rfl rfl rfl

theorem follows_class : ∀ c, Along r classDef (change r).classDef c
  | ⟨_, id, superClass, body⟩ => by
    refine Follows.cons ?_ rfl rfl rfl
    exact ((follows_own r true id).append (follows_optExpr superClass)).append
      (follows_members body)

theorem follows_members : ∀ ms, Along r members (change r).members ms
  | [] => .nil
  | .method _ _ _ key f :: rest =>
    ((follows_propName key).1.append (follows_func false f)).append (follows_members rest)
  | .property _ _ key e :: rest =>
    ((follows_propName key).1.append (follows_optExpr e)).append (follows_members rest)
  | .staticBlock _ body :: rest =>
    ((follows_stmts body).append (follows_members rest)).cons rfl rfl rfl

theorem follows_pat : ∀ p, Along r pat (change r).pat p
  | .ident _ => (Follows.nil.cons rfl rfl rfl).cons rfl rfl rfl
  | .array _ ps => (follows_patElements ps).cons rfl rfl rfl
  | .object _ ps => (follows_patProperties ps).cons rfl rfl rfl
  | .rest _ p => (follows_pat p).cons rfl rfl rfl
  | .assign _ p e => ((follows_pat p).append (follows_expr e)).cons rfl rfl rfl
  | .expr e => (follows_expr e).cons rfl rfl rfl

theorem follows_optPat : ∀ p, Along r optPat (change r).optPat p
  | none => .nil
  | some p => follows_pat p

theorem follows_pats : ∀ ps, Along r pats (change r).pats ps
  | [] => .nil
  | p :: rest => (follows_pat p).append (follows_pats rest)

theorem follows_patElements : ∀ ps, Along r patElements (change r).patElements ps
  | [] => .nil
  | none :: rest => follows_patElements rest
  | some p :: rest => (follows_pat p).append (follows_patElements rest)

theorem follows_patProperties : ∀ ps, Along r patProperties (change r).patProperties ps
  | [] => .nil
  | .keyValue _ key p :: rest =>
    ((follows_propName key).1.append (follows_pat p)).append (follows_patProperties rest)
  | .rest _ p :: rest => (follows_pat p).append (follows_patProperties rest)

theorem follows_varDecl : ∀ d, Along r varDecl (change r).varDecl d
  | ⟨_, _, ds⟩ => follows_declarators ds

theorem follows_declarators : ∀ ds, Along r declarators (change r).declarators ds
  | [] => .nil
  | ⟨_, p, e⟩ :: rest =>
    ((follows_pat p).append (follows_optExpr e)).append (follows_declarators rest)

theorem follows_forInit : ∀ i, Along r forInit (change r).forInit i
  | .none => .nil
  | .decl d => follows_varDecl d
  | .expr e => follows_expr e

theorem follows_forTarget : ∀ t, Along r forTarget (change r).forTarget t
  | .decl d => follows_varDecl d
  | .pat p => follows_pat p

theorem follows_switchCases : ∀ cs, Along r switchCases (change r).switchCases cs
  | [] => .nil
  | ⟨_, test, body⟩ :: rest =>
    (follows_optExpr test).append
      (((follows_stmts body).append (follows_switchCases rest)).cons rfl rfl rfl)

theorem follows_handler : ∀ h, Along r handler (change r).handler h
  | none => .nil
  | some ⟨_, param, b⟩ => (follows_optPat param).append (follows_block b)

theorem follows_optBlock : ∀ b, Along r optBlock (change r).optBlock b
  | none => .nil
  | some b => follows_block b

theorem follows_stmt : ∀ s, Along r stmt (change r).stmt s
  | .break .. | .continue .. | .debugger _ | .empty _ | .directive .. | .exportAll ..
  | .exportNamed _ _ (some _) => Follows.nil.cons rfl rfl rfl
  | .block b => (follows_block b).cons rfl rfl rfl
  | .varDecl d => (follows_varDecl d).cons rfl rfl rfl
  | .function f => (follows_func true f).cons rfl rfl rfl
  | .class c => (follows_class c).cons rfl rfl rfl
  | .expr _ e => (follows_expr e).cons rfl rfl rfl
  | .if _ test c a =>
    (((follows_expr test).append (follows_stmt c)).append (follows_optStmt a)).cons rfl rfl rfl
  | .for _ init test update body =>
    ((((follows_forInit init).append (follows_optExpr test)).append
      (follows_optExpr update)).append (follows_stmt body)).cons rfl rfl rfl
  | .forIn _ target e body =>
    (((follows_forTarget target).append (follows_expr e)).append
      (follows_stmt body)).cons rfl rfl rfl
  | .forOf _ _ target e body =>
    (((follows_forTarget target).append (follows_expr e)).append
      (follows_stmt body)).cons rfl rfl rfl
  | .while _ test body => ((follows_expr test).append (follows_stmt body)).cons rfl rfl rfl
  | .doWhile _ body test => ((follows_stmt body).append (follows_expr test)).cons rfl rfl rfl
  | .switch _ e cases => ((follows_expr e).append (follows_switchCases cases)).cons rfl rfl rfl
  | .try _ b h final =>
    (((follows_block b).append (follows_handler h)).append
      (follows_optBlock final)).cons rfl rfl rfl
  | .return _ e => (follows_optExpr e).cons rfl rfl rfl
  | .throw _ e => (follows_expr e).cons rfl rfl rfl
  | .labeled _ _ body => (follows_stmt body).cons rfl rfl rfl
  | .with _ e body => ((follows_expr e).append (follows_stmt body)).cons rfl rfl rfl
  | .importDecl _ xs _ => (follows_imports r xs).cons rfl rfl rfl
  | .exportNamed _ xs none => (follows_exports r xs).cons rfl rfl rfl
  | .exportDecl _ s => (follows_stmt s).cons rfl rfl rfl
  | .exportFunction _ f => (follows_func true f).cons rfl rfl rfl
  | .exportClass _ c => (follows_class c).cons rfl rfl rfl
  | .exportExpr _ e => (follows_expr e).cons rfl rfl rfl

theorem follows_optStmt : ∀ s, Along r optStmt (change r).optStmt s
  | none => .nil
  | some s => follows_stmt s

theorem follows_stmts : ∀ body, Along r stmts (change r).stmts body
  | [] => .nil
  | s :: rest => (follows_stmt s).append (follows_stmts rest)

end

end Walk

/-- A renaming renames the uses one by one. -/
theorem uses_renamed (r : Renaming) (p : Program) :
    uses (renamed r p) = (uses p).map (renamedUse r) := by
  have hbody : Follows r p.nodes (renamed r p).nodes :=
    (follows_stmts r p.body).cons rfl rfl rfl
  obtain ⟨us, hus⟩ := hbody
  have hnil := hus []
  simp only [List.append_nil, usesFrom] at hnil
  rw [uses, uses, hnil.1, hnil.2]

/-! ## Different names -/

theorem mem_uses {before : Bool} {ns : List Node} (h : (n, counted) ∈ usesFrom before ns) :
    ∃ e ∈ ns.filterMap nameIn?, e.1 = n := by
  induction ns generalizing before with
  | nil => cases h
  | cons node rest ih =>
    rw [usesFrom, List.mem_append] at h
    rw [List.filterMap_cons]
    rcases h with h | h
    · cases hname : nameIn? node with
      | none => simp [hname] at h
      | some e =>
        simp only [hname, Option.map_some, Option.toList_some, List.mem_singleton,
          Prod.mk.injEq] at h
        exact ⟨e, List.mem_cons_self, h.1.symm⟩
    · obtain ⟨e, he, hn⟩ := ih h
      cases nameIn? node with
      | none => exact ⟨e, he, hn⟩
      | some e' => exact ⟨e, List.mem_cons_of_mem _ he, hn⟩

theorem mem_names_of_mem_uses {p : Program} (h : (n, counted) ∈ uses p) : n ∈ names p := by
  have hgen : ∀ (es : List (String × Bool)) (acc : List String),
      (n ∈ acc ∨ ∃ e ∈ es, e.1 = n) → n ∈ es.foldl (fun names e =>
        if names.contains e.1 then names else names ++ [e.1]) acc := by
    intro es
    induction es with
    | nil =>
      rintro acc (h | ⟨e, he, _⟩)
      · exact h
      · cases he
    | cons e rest ih =>
      intro acc h
      rw [List.foldl_cons]
      apply ih
      rcases h with h | ⟨e', he', rfl⟩
      · left
        split
        · exact h
        · exact List.mem_append_left _ h
      · rcases List.mem_cons.mp he' with rfl | he'
        · left
          split
          · next hin => exact List.contains_iff_mem.mp hin
          · simp
        · exact .inr ⟨e', he', rfl⟩
  exact hgen _ [] (.inr (mem_uses h))

section NewNames

variable [PatternEngine] {o : PropertyOptions} {p : Program} {cache : Renaming} {k : String}

theorem newName_of_kept (hinj : cache.Injective) (hk : isRenamed o p k = false) :
    newName (newNames o p cache).table k = k := by
  have hextends := extends_newNames o p hinj
  cases hfind : (newNames o p cache).table.find? k with
  | none => rw [newName, hfind, Option.getD_none]
  | some x =>
    have hdone := ((hextends.table k x).mp hfind).1
    simp [hk] at hdone

theorem find?_of_isRenamed (hinj : cache.Injective) (hk : k ∈ names p)
    (hk' : isRenamed o p k = true) :
    (newNames o p cache).cache.find? k = some (newName (newNames o p cache).table k) := by
  have hextends := extends_newNames o p hinj
  have hdone : k ∈ ((names p).filter (isRenamed o p)).reverse := by simp [hk, hk']
  obtain ⟨x, hx⟩ := hextends.found k hdone
  rw [newName, (hextends.table k x).mpr ⟨hdone, hx⟩, hx, Option.getD_some]

/-- The new names of a program differ if no renamed property takes over from earlier runs
the name of a property that is kept. -/
theorem newName_injective (hinj : cache.Injective)
    (hfree : ∀ k ∈ names p, ∀ x ∈ names p, isRenamed o p k = true → cache.find? k = some x →
      isRenamed o p x = true) {m n : String} (hm : m ∈ names p) (hn : n ∈ names p)
    (heq : newName (newNames o p cache).table m = newName (newNames o p cache).table n) :
    m = n := by
  have hextends := extends_newNames o p hinj
  have hapart : ∀ k ∈ names p, ∀ l ∈ names p, isRenamed o p k = true →
      isRenamed o p l = false → newName (newNames o p cache).table k ≠ l := by
    rintro k hk l hl hk' hl' rfl
    rcases hextends.new k _ (find?_of_isRenamed hinj hk hk') with hfirst | hnot
    · rw [hfree k hk _ hl hk' hfirst] at hl'
      cases hl'
    · exact hnot (List.mem_append_left _ (List.mem_filter.mpr ⟨hl, by rw [hl']; rfl⟩))
  cases hm' : isRenamed o p m with
  | false =>
    rw [newName_of_kept hinj hm'] at heq
    cases hn' : isRenamed o p n with
    | false => rwa [newName_of_kept hinj hn'] at heq
    | true => exact absurd heq.symm (hapart n hn m hm hn' hm')
  | true =>
    cases hn' : isRenamed o p n with
    | false =>
      rw [newName_of_kept hinj hn'] at heq
      exact absurd heq (hapart m hm n hn hm' hn')
    | true =>
      refine hextends.injective m n _ (find?_of_isRenamed hinj hm hm') ?_
      rw [heq]
      exact find?_of_isRenamed hinj hn hn'

end NewNames

end Properties

open Properties (uses)

/-- Renaming properties keeps the uses of a program in their places.  The operands of
counts keep their names; any two other uses have the same name afterwards if and only if
they had the same name before. -/
theorem property_uses_consistent [PatternEngine] {o : PropertyOptions}
    (h : ∀ text, o.pattern = some text → (PatternEngine.compile? text).isSome = true)
    (p : Program) :
    ∃ q props, renameProperties o p [] = .ok (q, props)
      ∧ (uses q).map (·.2) = (uses p).map (·.2)
      ∧ (∀ (i : Nat) (a : String), (uses p)[i]? = some (a, true) → (uses q)[i]? = some (a, true))
      ∧ ∀ (i j : Nat) (a b : String), (uses p)[i]? = some (a, false) →
        (uses p)[j]? = some (b, false) →
        ((uses q)[i]? = (uses q)[j]? ↔ a = b) := by
  refine ⟨_, _, renameProperties_of_readable h p [], ?_, ?_, ?_⟩
  · rw [uses_renamed, List.map_map]
    rfl
  · intro i a ha
    rw [uses_renamed, List.getElem?_map, ha]
    rfl
  · intro i j a b ha hb
    rw [uses_renamed, List.getElem?_map, List.getElem?_map, ha, hb]
    simp only [Option.map_some, renamedUse, Bool.false_eq_true, ↓reduceIte,
      Option.some.injEq, Prod.mk.injEq, and_true]
    constructor
    · intro heq
      exact newName_injective NameCache.injective_empty.2 (fun _ _ _ _ _ h => nomatch h)
        (mem_names_of_mem_uses (List.mem_of_getElem? ha))
        (mem_names_of_mem_uses (List.mem_of_getElem? hb)) heq
    · rintro rfl
      rfl

def propertyReader (names : List String) (counted : String) : Program :=
  let ident (text : String) : Ident := ⟨.nowhere, text, none⟩
  let access (name : String) : Expr :=
    .member .nowhere false (.ident (ident "o")) (.ident (ident name))
  ⟨.nowhere, .script, names.map (fun name => .expr .nowhere (access name))
    ++ [.expr .nowhere (.update .nowhere .increment false (access counted))], [], none, []⟩

theorem readable_pattern (text : String) (h : some "^[nx]" = some text) :
    (PatternEngine.compile? text).isSome = true := by
  cases h
  decide +kernel

/-- Two accesses to a property and one to another still have the same and another name. -/
theorem propertyReader_consistent :
    uses (propertyReader ["n", "m", "n"] "k")
        = [("n", false), ("m", false), ("n", false), ("k", true)]
      ∧ ∃ q props, renameProperties { pattern := some "^[nx]" }
          (propertyReader ["n", "m", "n"] "k") [] = .ok (q, props)
        ∧ (uses q)[3]? = some ("k", true) ∧ (uses q)[0]? = (uses q)[2]?
        ∧ (uses q)[0]? ≠ (uses q)[1]? := by
  refine ⟨rfl, ?_⟩
  obtain ⟨q, props, hok, _, hcounted, huse⟩ := property_uses_consistent
    (o := { pattern := some "^[nx]" }) readable_pattern (propertyReader ["n", "m", "n"] "k")
  refine ⟨q, props, hok, hcounted 3 "k" rfl, (huse 0 2 "n" "n" rfl rfl).mpr rfl, ?_⟩
  intro heq
  exact absurd ((huse 0 1 "n" "m" rfl rfl).mp heq) (by decide)

/-- The operand of a count loses the property that it names elsewhere. -/
theorem propertyReader_inconsistent :
    ∃ q props, renameProperties {} (propertyReader ["n"] "n") [] = .ok (q, props)
      ∧ uses (propertyReader ["n"] "n") = [("n", false), ("n", true)]
      ∧ uses q = [("a", false), ("n", true)] := by
  have hfresh : (Alphabet.plain.fresh [] 0).1 = "a" := by
    rw [Alphabet.plain_eq]
    decide +kernel
  have htable : (newNames {} (propertyReader ["n"] "n") []).table
      = [("n", (Alphabet.plain.fresh [] 0).1)] := rfl
  refine ⟨_, _, rfl, rfl, ?_⟩
  show uses (renamed (newNames {} (propertyReader ["n"] "n") []).table _) = _
  rw [uses_renamed, htable, hfresh]
  rfl

/-! ## Names of earlier runs -/

open Properties (names newName newNames isRenamed)

/-- After any session the new names of the properties of a program differ if and only if no
renamed property takes over from the session the name of a property that is kept. -/
theorem reused_properties_differ_iff [PatternEngine] {c : NameCache}
    (hsession : NameCache.Session {} c) {o : PropertyOptions}
    (h : ∀ text, o.pattern = some text → (PatternEngine.compile? text).isSome = true)
    (p : Program) :
    renameProperties o p c.props
        = .ok (renamed (newNames o p c.props).table p, (newNames o p c.props).cache)
      ∧ ((∀ m ∈ names p, ∀ n ∈ names p,
          newName (newNames o p c.props).table m = newName (newNames o p c.props).table n → m = n)
        ↔ ∀ k ∈ names p, ∀ x ∈ names p, isRenamed o p k = true → c.props.find? k = some x →
          isRenamed o p x = true) := by
  obtain ⟨⟨_, hinj⟩, _⟩ := hsession.injective_and_kept NameCache.injective_empty
  refine ⟨renameProperties_of_readable h p c.props, ?_,
    fun hfree m hm n hn => newName_injective hinj hfree hm hn⟩
  intro hdiffer k hk x hx hk' hfind
  cases hx' : isRenamed o p x with
  | true => rfl
  | false =>
    have hkeep := (extends_newNames o p hinj).kept k x hfind
    rw [find?_of_isRenamed hinj hk hk', Option.some.injEq] at hkeep
    rw [hdiffer k hk x hx (hkeep.trans (newName_of_kept hinj hx').symm), hx'] at hk'
    cases hk'

def propertyAccesses (names : List String) : Program :=
  ⟨.nowhere, .script, names.map fun name => .expr .nowhere (.member .nowhere false
    (.ident ⟨.nowhere, "o", none⟩) (.ident ⟨.nowhere, name, none⟩)), [], none, []⟩

/-- The names after a run over an access to `x`. -/
def accessCache : NameCache := { props := [("x", "a")] }

theorem session_accessCache : NameCache.Session {} accessCache := by
  have hfresh : (Alphabet.plain.fresh [] 0).1 = "a" := by
    rw [Alphabet.plain_eq]
    decide +kernel
  have hrun : renameProperties {} (propertyAccesses ["x"]) [] = .ok
      (_, [("x", (Alphabet.plain.fresh [] 0).1)]) := rfl
  rw [hfresh] at hrun
  exact .single (.ofProperties {} {} hrun)

/-- A property that gets a name that is free keeps apart from one that has its name from the
session. -/
theorem accessCache_properties_differ :
    NameCache.Session {} accessCache ∧ accessCache.props.find? "x" = some "a" ∧
      let table := (newNames { pattern := some "^[nx]" } (propertyAccesses ["x", "y"])
        accessCache.props).table
      ∀ m ∈ names (propertyAccesses ["x", "y"]), ∀ n ∈ names (propertyAccesses ["x", "y"]),
        newName table m = newName table n → m = n :=
  ⟨session_accessCache, rfl, (reused_properties_differ_iff session_accessCache
    (o := { pattern := some "^[nx]" }) readable_pattern (propertyAccesses ["x", "y"])).2.mpr
      (by decide +kernel)⟩

/-- A reserved property is merged with one that has its name from the session. -/
theorem accessCache_merges_reserved :
    NameCache.Session {} accessCache
      ∧ renameProperties { reserved := ["a"] } (propertyAccesses ["x", "a"]) accessCache.props
        = .ok (propertyAccesses ["a", "a"], [("x", "a")]) :=
  ⟨session_accessCache, rfl⟩

end Laconic
