import Laconic.Proofs.Compress.FixedReads
import Laconic.Proofs.Compress.StatementRules

/-!
# Vocabularies that last

A pass of compression resolves the names of the program, applies the rules and removes what
is not used.  A vocabulary that is kept by each of these steps is kept by any number of
passes, so it says of the compressed program what it said of the program.
-/

namespace Laconic

namespace Vocabulary

variable {v : Vocabulary} {t : Targets} {tree : ScopeTree} {inert toplevel : Bool} {body : BodyKind}
  {n : Nat}

/-- Whether a function may be there does not change with what compression does to it. -/
structure Lasting (v : Vocabulary) (o : CompressOptions) : Prop where
  named : v.NamedBy Program.bindNext
  rewritten : ∀ f, v.function f → hasDirective f.body.body "use asm" = false → ∀ ps body,
    v.function ⟨f.loc, f.id, f.isAsync, f.isGenerator, ps, ⟨f.body.loc, body⟩⟩
  dropped : o.unused = true → ∀ f, v.function f → ∀ id ps,
    (id = f.id ∨ o.keepFunctionNames = false ∧ id = none) →
    (ps = f.params ∨ o.keepParams = false ∧ ps <+: f.params) →
    v.function { f with id, params := ps }

/-! ## Removal -/

section Removal

variable {r : Remover}
variable {k : Remover.Kept} {kind : VarKind} {loc : Span}

theorem dropParams_eq (ps : List Pat) :
    r.dropParams ps = ps ∨ r.options.keepParams = false ∧ r.dropParams ps <+: ps := by
  unfold Remover.dropParams
  split
  · exact .inl rfl
  · next hkeep =>
    refine .inr ⟨Bool.eq_false_iff.mpr hkeep, ?_⟩
    have hsuffix := List.dropWhile_suffix r.isUnusedParam (l := ps.reverse)
    rw [← List.reverse_prefix, List.reverse_reverse] at hsuffix
    exact hsuffix

theorem dropName_eq (keep : Bool) (id : Option Ident) :
    r.dropName keep id = id ∨ keep = false ∧ r.dropName keep id = none := by
  unfold Remover.dropName
  split
  · exact .inl rfl
  · next hkeep =>
    cases id with
    | none => exact .inl rfl
    | some id =>
      rw [Option.filter_some]
      split
      · exact .inl rfl
      · exact .inr ⟨Bool.eq_false_iff.mpr hkeep, rfl⟩

theorem pats_dropParams {ps : List Pat} (h : v.pats ps) : v.pats (r.dropParams ps) := by
  rcases dropParams_eq (r := r) ps with heq | ⟨_, hkept⟩
  · rwa [heq]
  · rw [pats_iff] at h ⊢
    exact fun p hp => h p (hkept.subset hp)

/-- The variables that stay keep to a vocabulary, and so do the statements so far. -/
def kept (v : Vocabulary) (t : Targets) (k : Remover.Kept) : Prop :=
  v.declarators k.group ∧ v.stmts t k.list

theorem stmts_close (h : v.kept t k) : v.stmts t (k.close loc kind) := by
  unfold Remover.Kept.close
  split
  · exact h.2
  · exact stmts_append.mpr ⟨h.2, h.1, trivial⟩

theorem gives_keepDeclarator {d : Declarator} (h : v.kept t k) (hd : v.declarators [d]) :
    Gives (r.keepDeclarator loc kind k d) (v.kept t) := by
  unfold Remover.keepDeclarator
  split
  · exact .pure ⟨declarators_append h.1 hd, h.2⟩
  · refine Gives.bind .unknown fun _ _ => ?_
    split
    · next e heq =>
      obtain ⟨init, hinit, hdrop⟩ := Option.bind_eq_some_iff.mp heq
      have he : v.expr e := by
        have hvalue := (declarators_iff.mp hd d List.mem_cons_self).2
        rw [hinit] at hvalue
        exact expr_of_optExpr (optExpr_dropUnused r.purity init hvalue) e hdrop
      exact .pure ⟨trivial, stmts_append.mpr ⟨stmts_close h, he, trivial⟩⟩
    · exact .pure h

theorem gives_keepDeclarators {ds : List Declarator} (h : v.kept t k) (hds : v.declarators ds) :
    Gives (ds.foldlM (r.keepDeclarator loc kind) k) (v.kept t) := by
  induction ds generalizing k with
  | nil => exact .pure h
  | cons d rest ih =>
    rw [declarators_iff, List.forall_mem_cons] at hds
    refine (gives_keepDeclarator h (declarators_iff.mpr (List.forall_mem_singleton.mpr hds.1))).bind
      fun _ hk => ih hk (declarators_iff.mpr hds.2)

theorem gives_dropDeclarators {d : VarDecl} (h : v.varDecl d) :
    Gives (r.dropDeclarators d) (·.All (v.stmt t)) := by
  refine .ite (fun _ => .pure trivial) fun _ => ?_
  have hstart : v.kept t {} := ⟨trivial, trivial⟩
  refine (gives_keepDeclarators hstart (varDecl_iff.mp h)).bind fun k hk => .pure ?_
  have hlist : v.stmts t (k.close d.loc d.kind) := stmts_close hk
  split
  · trivial
  · exact stmts_iff.mp hlist

variable {o : CompressOptions}

theorem gives_removeStmt (hv : v.Lasting o) (ho : r.options = o) (hunused : o.unused = true)
    {s : Stmt} (h : v.stmt t s) : Gives (r.afterStmt s) (·.All (v.stmt t)) := by
  subst ho
  unfold Remover.afterStmt
  split
  · exact gives_dropDeclarators h
  · next f =>
    split
    · exact Gives.bind .unknown fun _ _ => .pure trivial
    · have hf := hv.dropped hunused f (function_of_func h) f.id _ (.inl rfl) (dropParams_eq _)
      obtain ⟨loc, id, isAsync, isGenerator, ps, ⟨bodyLoc, body⟩⟩ := f
      exact .pure ⟨hf, pats_dropParams h.2.1, h.2.2⟩
  · split
    · exact .ite (fun _ => .pure trivial) fun _ => Gives.bind .unknown fun _ _ => .pure trivial
    · exact .pure trivial
  · exact .pure trivial

theorem all_removeExpr (hv : v.Lasting o) (ho : r.options = o) (hunused : o.unused = true)
    {e : Expr} (h : v.expr e) : (r.afterExpr e).All v.expr := by
  subst ho
  unfold Remover.afterExpr
  split
  · split
    · exact h.2
    · trivial
  · next f =>
    have hf := hv.dropped hunused f (function_of_func h) _ _ (dropName_eq (r := r) _ _)
      (dropParams_eq (r := r) _)
    obtain ⟨loc, id, isAsync, isGenerator, ps, ⟨bodyLoc, body⟩⟩ := f
    exact ⟨hf, pats_dropParams h.2.1, h.2.2⟩
  · next a =>
    obtain ⟨loc, isAsync, ps, body⟩ := a
    cases body with
    | block b =>
      obtain ⟨bodyLoc, body⟩ := b
      exact ⟨pats_dropParams h.1, h.2⟩
    | expr e => exact ⟨pats_dropParams h.1, h.2⟩
  · next c =>
    obtain ⟨loc, id, superClass, body⟩ := c
    exact h
  · trivial

theorem keptBy_remover (hv : v.Lasting o) (ho : r.options = o) (hunused : o.unused = true) :
    v.KeptBy r.rewriter where
  keeps :=
    { beforeStmt := fun _ => rfl
      afterStmt := fun _ _ h => gives_removeStmt hv ho hunused h
      beforeExpr := fun _ _ => .pure trivial
      afterExpr := fun _ h => .pure (all_removeExpr hv ho hunused h)
      afterStmts := fun _ _ _ h => .pure h }
  enters f hf := .pure fun henters => hv.rewritten f hf (Bool.not_eq_true' _ ▸ henters)
  loops t s hloop h := by
    cases s with
    | «while» | «for» | forIn | forOf | doWhile => exact .pure (.inl ⟨_, rfl, rfl⟩)
    | _ => cases hloop

end Removal

/-! ## Rules -/

theorem all_beforeExpr (e : Expr) : (Compressor.beforeExpr e).All v.expr := by
  unfold Compressor.beforeExpr
  split <;> trivial

theorem keptBy_compressor {c : Compressor} (hv : v.Lasting c.options)
    (hfixed : c.options.reduceVars = true → v.Fixed c.tree) (depth : Nat) (inlining : List Nat) :
    v.KeptBy (c.rewriter depth inlining) := by
  have henters : ∀ (depth : Nat) (inlining : List Nat) f, v.function f →
      Gives ((c.rewriter depth inlining).enterFunction f) fun enters => enters = true →
        ∀ ps body, v.function ⟨f.loc, f.id, f.isAsync, f.isGenerator, ps, ⟨f.body.loc, body⟩⟩ := by
    intro depth inlining f hf
    cases depth <;>
      exact .ite (fun _ => .pure nofun) fun hasm => Gives.bind .unknown fun _ _ =>
        .pure fun _ => hv.rewritten f hf (Bool.eq_false_iff.mpr hasm)
  -- the body in the place of a call is rewritten one expansion deeper
  induction depth generalizing inlining with
  | zero =>
    refine ⟨⟨fun _ => rfl, fun _ _ h => gives_optimizeStmt h, fun e _ => .pure (all_beforeExpr e),
      fun _ h => gives_optimizeExpr hfixed (fun _ _ h => .pure h) h, fun _ _ _ h => ?_⟩,
      henters 0 inlining, fun _ _ => gives_optimizeStmt_loop⟩
    exact (gives_optimizeBody (stmts_iff.mpr h)).mono fun _ => stmts_iff.mp
  | succ depth ih =>
    refine ⟨⟨fun _ => rfl, fun _ _ h => gives_optimizeStmt h, fun e _ => .pure (all_beforeExpr e),
      fun _ h => gives_optimizeExpr hfixed (fun n _ h => gives_expr (ih (n :: inlining)) 0 h) h,
      fun _ _ _ h => ?_⟩, henters (depth + 1) inlining, fun _ _ => gives_optimizeStmt_loop⟩
    exact (gives_optimizeBody (stmts_iff.mpr h)).mono fun _ => stmts_iff.mp

/-! ## Passes -/

theorem expr_of_ofDeclarator? {kind : VarKind} {d : Declarator} {value : Expr}
    (h : v.optExpr d.init)
    (hvalue : FixedValues.ofDeclarator? tree toplevel body kind inert d = some (n, value)) :
    v.expr value := by
  obtain ⟨_, _, _, hinit, _⟩ := FixedValues.ofDeclarator?_eq_some hvalue
  rw [hinit] at h
  exact h

theorem stmts_of_ofBody {list : List Stmt} {f : Func} (h : v.stmts t list)
    (hvalue : (n, .function f) ∈ FixedValues.ofBody tree toplevel body inert list) :
    v.stmts {} f.body.body := by
  induction list generalizing inert with
  | nil => cases hvalue
  | cons s rest ih =>
    rcases List.mem_append.mp hvalue with hfirst | hrest
    · cases s with
      | varDecl d =>
        obtain ⟨x, hx, _, hvalue⟩ := FixedValues.mem_ofDeclarators hfirst
        have hf := expr_of_ofDeclarator? (declarators_iff.mp (varDecl_iff.mp h.1) x hx).2 hvalue
        exact stmts_of_func hf
      | function f =>
        obtain ⟨_, _, hvalue⟩ := Option.bind_eq_some_iff.mp (Option.mem_toList.mp hfirst)
        obtain ⟨_, _, hvalue⟩ := Option.bind_eq_some_iff.mp hvalue
        obtain ⟨_, _, hvalue⟩ := Option.bind_eq_some_iff.mp hvalue
        cases hvalue
        exact (stmts_of_func h.1 : v.stmts {} f.body.body)
      | _ => cases hfirst
    · exact ih h.2 hrest

theorem fixed_markFixed {p : Program} (h : v.stmts t p.body) (tree : ScopeTree)
    (toplevel : Bool) : v.Fixed (tree.markFixed p toplevel) := by
  intro n s f hs hvalue
  obtain ⟨_, kind, list, _, _, hbody, hmem⟩ := FixedValues.mem_of_markFixed hs hvalue
  obtain ⟨_, hlist⟩ : ∃ t, v.stmts t list := (told_program t false p).lists h _ _ hbody
  exact stmts_of_ofBody hlist hmem

section Passes

variable {o : CompressOptions} {p : Program} {ie8 strict : Bool} {warnings : List Warning}

/-- One pass keeps to a vocabulary, and so does what it has made of the program when it
fails. -/
theorem stmts_compressPass (h : v.stmts {} p.body) (hv : v.Lasting o) (ie8 strict : Bool)
    (warnings : List Warning) :
    (∃ q warnings', compressPass o ie8 strict p warnings = .ok (q, warnings') ∧ v.stmts {} q.body) ∨
      ∃ q err, compressPass o ie8 strict p warnings = .error (q, err) ∧ v.stmts {} q.body := by
  unfold compressPass
  cases hresolve : resolve ie8 p with
  | error err =>
    refine .inr ⟨p, err, ?_, h⟩
    simp only [hresolve]
    rfl
  | ok r =>
    obtain ⟨q₁, t⟩ := r
    have h₁ := stmts_of_resolve hv.named h hresolve
    simp only [hresolve, Except.mapError, bind, Except.bind]
    split
    next q₂ progress hrun =>
    have h₂ : v.stmts {} q₂.body := by
      have hq₂ : _ = q₂ := congrArg Prod.fst hrun
      rw [← hq₂]
      refine gives_program (keptBy_compressor hv (fun hreduce => ?_) _ _) 0 h₁ _
      show v.Fixed (if o.reduceVars then _ else _)
      rw [if_pos hreduce]
      exact fixed_markFixed h₁ t _
    cases hunused : o.unused with
    | false => exact .inl ⟨q₂, progress.warnings, rfl, h₂⟩
    | true =>
      cases hresolve₂ : resolve ie8 q₂ with
      | error err => exact .inr ⟨q₂, err, rfl, h₂⟩
      | ok r =>
        exact .inl ⟨_, _, rfl, gives_program (keptBy_remover hv rfl hunused) 0
          (stmts_of_resolve hv.named h₂ hresolve₂) _⟩

theorem stmts_compressPasses (h : v.stmts {} p.body) (hv : v.Lasting o) {passes size : Nat} :
    v.stmts {} (compressPasses o ie8 strict passes size p warnings).program.body := by
  induction passes generalizing p size warnings with
  | zero => exact h
  | succ passes ih =>
    rw [compressPasses]
    rcases stmts_compressPass h hv ie8 strict warnings with
      ⟨q, warnings', hpass, hq⟩ | ⟨q, err, hpass, hq⟩
    · rw [hpass]
      dsimp only
      split
      · exact hq
      · exact ih hq
    · rw [hpass]
      exact hq

/-- Compression keeps to a vocabulary that lasts. -/
theorem stmts_compress (h : v.stmts {} p.body) (hv : v.Lasting o) (ie8 : Bool) :
    v.stmts {} (compress o ie8 p).program.body := by
  unfold compress
  split
  · exact h
  · exact stmts_compressPasses h hv

end Passes

end Vocabulary

end Laconic
