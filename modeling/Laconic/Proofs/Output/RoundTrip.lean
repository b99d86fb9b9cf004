import Laconic.Proofs.Output.Places
import Laconic.Proofs.Output.Statements

/-!
# Written programs are read back

The text of a program of expressions made of names, literals, operators, accesses, calls
and `new`, and of blocks, branches and loops of such expressions, is legible as the tokens
that its layout puts.  These are read as a program of the same statements: each `else`
belongs to its `if`, since braces part it from an `if` that would take it.  What has been
read of expressions is laid out alike, so writing it gives the same text again.
-/

namespace Laconic

open Written Layout

variable {p : Program}

/-! ## Programs of statements -/

theorem Rendered.keptComments_eq_nil {cs : List Comment} (h : ∀ c ∈ cs, keeps {} c = false) :
    keptComments {} cs = [] := by
  have hnone : cs.filter (keeps {}) = [] := List.filter_eq_nil_iff.mpr fun c hc => by simp [h c hc]
  rw [keptComments, hnone, List.mergeSort_nil]

theorem print_eq (hcomments : ∀ c ∈ p.comments, Rendered.keeps {} c = false)
    (hshebang : p.shebang = none) {r : Rendered}
    (hr : Rendered.pieces {} p.files (separated newline (stmts {} p.body)) {} = r)
    (hnone : r.comments = []) : print {} p = (Rendered.flushSemi {} r).text := by
  have hdone : { Rendered.writeComments {} p.files r.comments r with comments := [] } = r := by
    cases r
    cases hnone
    rfl
  unfold print render
  rw [Rendered.keptComments_eq_nil hcomments, hshebang]
  show (Rendered.flushSemi {} { Rendered.writeComments {} p.files (Rendered.pieces {} p.files
    (separated newline (stmts {} p.body)) {}).comments
    (Rendered.pieces {} p.files (separated newline (stmts {} p.body)) {}) with
      comments := [] }).text = _
  rw [hr, hdone]

theorem Stmt.AllConveyed.exists_parse_print {g : List Written → List Written}
    (h : AllConveyed [] p.body g) (hcomments : ∀ c ∈ p.comments, Rendered.keeps {} c = false)
    (hshebang : p.shebang = none) :
    ∃ p', parse {} (print {} p) = .ok p' ∧ p'.body.map (outline true) = p.body.map (outline false) ∧
      p'.comments = [] ∧ p'.shebang = none := by
  obtain ⟨hnone, hfull⟩ := h.puts.full p.files (r := {}) rfl
  have hlayout : Rendered.pieces {} p.files
      (separated newline (stmts {} p.body)) {} = Rendered.pieces {} p.files
      (concat ((stmts {} p.body).map (newline ++ ·))) {} := by
    cases stmts {} p.body <;> rfl
  have htext : (print {} p).toList = joined '\x00' (g []) := by
    rw [print_eq hcomments hshebang hlayout hnone, Rendered.toList_flushSemi, hfull]
    rfl
  have hneat : Neat (g []) := h.neat ⟨.nil, List.forall_mem_nil _⟩
  refine parse_of_passes (htext ▸ legible_joined hneat.meets _) ?_ ?_ fun n hn =>
    h.passes_statementList (by simpa using hn)
  · rcases h.first [] with heq | ⟨w, ts, heq, hopens⟩ <;> rw [heq]
    · simp
    · rintro _ ⟨⟩
      exact (Lexeme.ne_of_opens hopens).2.2.2
  · intro x hx
    obtain ⟨w, hw, rfl⟩ := List.mem_map.mp hx
    exact hneat.arrowless w hw

/-- The text of blocks, branches, loops and labels of any depth is accepted, and read as the same
statements.  An `else` belongs to the same `if`: only the first branch of an `if` may have got
braces. -/
theorem outline_parse_print {p : Program} (h : ∀ s ∈ p.body, s.IsPlain [])
    (hcomments : ∀ c ∈ p.comments, Rendered.keeps {} c = false) (hshebang : p.shebang = none) :
    ∃ p', parse {} (print {} p) = .ok p' ∧
      p'.body.map (Stmt.outline true) = p.body.map (Stmt.outline false) := by
  obtain ⟨g, hg⟩ := Stmt.exists_allConveyed fun s hs => (h s hs).exists_conveyed
  obtain ⟨p', hp', hbody, -⟩ := hg.exists_parse_print hcomments hshebang
  exact ⟨p', hp', hbody⟩

/-- The tree of `if(a){b:while(a)if(a);}else;`. -/
def danglingIf : Stmt :=
  let a : Expr := .ident ⟨.nowhere, "a", none⟩
  .if .nowhere a (.labeled .nowhere ⟨.nowhere, "b", none⟩
    (.while .nowhere a (.if .nowhere a (.empty .nowhere) none))) (some (.empty .nowhere))

theorem danglingIf_reread : danglingIf.IsPlain [] ∧ ∃ p',
    parse {} (print {} ⟨.nowhere, .script, [danglingIf], [], none, []⟩) = .ok p' ∧
      p'.body.map (Stmt.outline true) = [danglingIf.outline false] := by
  have ha : (Expr.ident ⟨.nowhere, "a", none⟩).IsOperation :=
    .ident (by decide +kernel) (by decide +kernel)
  have h : danglingIf.IsPlain [] := .ifElse ha (.labeled (by decide +kernel) (by decide +kernel)
    List.not_mem_nil (.while ha (.if ha .empty))) .empty
  exact ⟨h, outline_parse_print (List.forall_mem_singleton.mpr h) (List.forall_mem_nil _) rfl⟩

/-! ## Programs of expressions -/

/-- A statement of an expression of names, literals, operators, accesses and calls. -/
def Stmt.IsOperation (s : Stmt) : Prop := ∃ loc e, s = .expr loc e ∧ e.IsOperation

theorem Stmt.forall₂_readsAs {ss ss' : List Stmt} (h : ∀ s ∈ ss, s.IsOperation)
    (heq : ss'.map (outline true) = ss.map (outline false)) : List.Forall₂ ReadsAs ss ss' := by
  induction ss generalizing ss' with
  | nil =>
    cases List.map_eq_nil_iff.mp heq
    exact .nil
  | cons s ss ih =>
    obtain ⟨s', ss', rfl, hs', hss'⟩ := List.map_eq_cons_iff.mp heq
    obtain ⟨loc, e, rfl, he⟩ := h s List.mem_cons_self
    refine .cons ?_ (ih (fun s hs => h s (List.mem_cons_of_mem _ hs)) hss')
    cases s' with
    | expr loc' e' => exact (Stmt.expr.inj hs').2
    | block b =>
      obtain ⟨loc', body⟩ := b
      cases hs'
    | _ => cases hs'

theorem exists_parse_print (h : ∀ s ∈ p.body, s.IsOperation)
    (hcomments : ∀ c ∈ p.comments, Rendered.keeps {} c = false) (hshebang : p.shebang = none) :
    ∃ p', parse {} (print {} p) = .ok p' ∧ List.Forall₂ Stmt.ReadsAs p.body p'.body ∧
      p'.comments = [] ∧ p'.shebang = none := by
  obtain ⟨g, hg⟩ : ∃ g, Stmt.AllConveyed [] p.body g := Stmt.exists_allConveyed fun s hs => by
    obtain ⟨loc, e, rfl, he⟩ := h s hs
    exact Stmt.exists_conveyed_expr he
  obtain ⟨p', hp', hbody, hrest⟩ := hg.exists_parse_print hcomments hshebang
  exact ⟨p', hp', Stmt.forall₂_readsAs h hbody, hrest⟩

/-- Minimal parentheses are enough: the text of an expression of names, literals, operators,
accesses and calls is read as one statement with the same expression. -/
theorem parse_print_operation {p : Program} {loc : Span} {e : Expr} (he : e.IsOperation)
    (hbody : p.body = [.expr loc e]) (hcomments : p.comments = []) (hshebang : p.shebang = none) :
    ∃ p' loc' e', parse {} (print {} p) = .ok p' ∧ p'.body = [.expr loc' e'] ∧ e.ReadsAs e' := by
  have hall : ∀ s ∈ p.body, s.IsOperation := by
    rw [hbody]
    exact List.forall_mem_singleton.mpr ⟨loc, e, rfl, he⟩
  have hnone : ∀ c ∈ p.comments, Rendered.keeps {} c = false := by
    rw [hcomments]
    exact nofun
  obtain ⟨p', hp', hread, -⟩ := exists_parse_print hall hnone hshebang
  rw [hbody, List.forall₂_cons_left_iff] at hread
  obtain ⟨s, rest, hreads, hrest, hbody'⟩ := hread
  cases hrest
  cases s with
  | expr loc' e' => exact ⟨p', loc', e', hp', hbody', hreads⟩
  | _ => exact hreads.elim

/-- The tree of `new(a.b())(1..x,(-c)**2)`. -/
def newOfCall : Expr :=
  .new .nowhere false
    (.call .nowhere false false
      (.member .nowhere false (.ident ⟨.nowhere, "a", none⟩) (.ident ⟨.nowhere, "b", none⟩)) [])
    [.member .nowhere false (.num .nowhere 1) (.ident ⟨.nowhere, "x", none⟩),
      .binary .nowhere .exp (.unary .nowhere .minus (.ident ⟨.nowhere, "c", none⟩))
      (.num .nowhere 2)]

theorem isOperation_newOfCall : newOfCall.IsOperation := by
  have ha : (Expr.ident ⟨.nowhere, "a", none⟩).IsOperation :=
    .ident (by decide +kernel) (by decide +kernel)
  have hc : (Expr.ident ⟨.nowhere, "c", none⟩).IsOperation :=
    .ident (by decide +kernel) (by decide +kernel)
  refine .new (.call (.dotted ha (by decide +kernel)) nofun) ?_
  intro e he
  rcases List.mem_pair.mp he with rfl | rfl
  · exact .dotted (.num (by decide +kernel) (by decide +kernel)) (by decide +kernel)
  · exact .binary (.unary hc) (.num (by decide +kernel) (by decide +kernel))

theorem newOfCall_reread : newOfCall.IsOperation ∧ ∃ p' loc' e',
    parse {} (print {} ⟨.nowhere, .script, [.expr .nowhere newOfCall], [], none, []⟩) = .ok p' ∧
      p'.body = [.expr loc' e'] ∧ newOfCall.ReadsAs e' :=
  ⟨isOperation_newOfCall, parse_print_operation isOperation_newOfCall rfl rfl rfl⟩

example : print {} ⟨.nowhere, .script, [.expr .nowhere newOfCall], [], none, []⟩
    = "new(a.b())(1..x,(-c)**2);" := by
  decide +kernel

/-! ## Writing again -/

/-- Programs whose layouts are alike are printed alike. -/
theorem print_eq_of_alike {p' : Program}
    (h : (separated newline (stmts {} p.body)).Alike (separated newline (stmts {} p'.body)))
    (hcomments : ∀ c ∈ p.comments, Rendered.keeps {} c = false)
    (hcomments' : ∀ c ∈ p'.comments, Rendered.keeps {} c = false) (hshebang : p.shebang = none)
    (hshebang' : p'.shebang = none) : print {} p = print {} p' := by
  have hsame := same_bare p.files [] (.separated .newline (stmts {} p.body))
  have hsame' := same_bare p'.files [] (.separated .newline (stmts {} p'.body))
  rw [print_eq hcomments hshebang rfl hsame.comments,
    print_eq hcomments' hshebang' rfl hsame'.comments, hsame.flushSemi.text, h,
    hsame'.flushSemi.text]

/-- The text of expressions of names, literals, operators, accesses and calls is accepted, and
what has been read from it is written as the same text. -/
theorem print_parse_print {p : Program} (h : ∀ s ∈ p.body, s.IsOperation)
    (hcomments : ∀ c ∈ p.comments, Rendered.keeps {} c = false) (hshebang : p.shebang = none) :
    ∃ p', parse {} (print {} p) = .ok p' ∧ print {} p' = print {} p := by
  obtain ⟨p', hp', hread, hcomments', hshebang'⟩ := exists_parse_print h hcomments hshebang
  have hnone : ∀ c ∈ p'.comments, Rendered.keeps {} c = false := by
    rw [hcomments']
    exact nofun
  refine ⟨p', hp', (print_eq_of_alike (.separated ?_ _) hcomments hnone hshebang hshebang').symm⟩
  exact alike_of_forall₂ hread

/-- The programs of `new(a.b())(1..x,(-c)**2)` and of `this`. -/
theorem newOfCall_stable : (∀ s ∈ [Stmt.expr .nowhere newOfCall, .expr .nowhere (.this .nowhere)],
      s.IsOperation) ∧
    ∃ p', parse {} (print {} ⟨.nowhere, .script,
        [.expr .nowhere newOfCall, .expr .nowhere (.this .nowhere)], [], none, []⟩) = .ok p' ∧
      print {} p' = print {} ⟨.nowhere, .script,
        [.expr .nowhere newOfCall, .expr .nowhere (.this .nowhere)], [], none, []⟩ := by
  have h : ∀ s ∈ [Stmt.expr .nowhere newOfCall, .expr .nowhere (.this .nowhere)],
      s.IsOperation := by
    intro s hs
    rcases List.mem_pair.mp hs with rfl | rfl
    · exact ⟨_, _, rfl, isOperation_newOfCall⟩
    · exact ⟨_, _, rfl, .this⟩
  exact ⟨h, print_parse_print h nofun rfl⟩

/-- Parentheses around the callee of a `new` are dropped where it calls `import`, and what is
left is no expression. -/
theorem newImport_refused :
    (parse {} "new(import(\"a\"))").toOption.map (fun p =>
      (print {} p, (parse {} (print {} p)).toOption.isSome))
      = some ("new import(\"a\");", false) := by
  decide +kernel

end Laconic
