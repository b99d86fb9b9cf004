import Laconic.CommandLine.Run
import Laconic.Proofs.Output.RoundTrip

/-!
# Programs of several units

A run reads its units one after the other and joins their bodies.  If nothing is compressed or
renamed, the text is that of the joined program.  The directives at the head of that program
are those of the first unit, and those of a later unit only if all units before it consist of
directives: so a unit can come to be strict, or cease to be, by the company it is in.  Units of
expressions alone have no directives, and what is written for them is read back.
-/

namespace Laconic

open ScopeEvent (usesStrict)

/-! ## Directives of joined bodies -/

/-- Whether all statements are directives. -/
def allDirectives (body : List Stmt) : Bool := body.all (·.directive?.isSome)

theorem directives_append (body rest : List Stmt) :
    directives (body ++ rest)
      = directives body ++ if allDirectives body then directives rest else [] := by
  induction body with
  | nil => rfl
  | cons s body ih =>
    cases s with
    | directive loc raw =>
      rw [List.cons_append, directives, directives, ih]
      rfl
    | _ => rfl

theorem usesStrict_append (body rest : List Stmt) :
    usesStrict (body ++ rest) = true
      ↔ usesStrict body = true ∨ allDirectives body = true ∧ usesStrict rest = true := by
  simp only [usesStrict, hasDirective, directives_append, List.contains_iff_mem, List.mem_append]
  split
  · next hall => simp [hall]
  · next hall => simp [hall]

theorem usesStrict_flatMap (programs : List Program) :
    usesStrict (programs.flatMap Program.body) = true ↔
      ∃ before q after, programs = before ++ q :: after ∧
        (∀ b ∈ before, allDirectives b.body = true) ∧ usesStrict q.body = true := by
  induction programs with
  | nil => simp [usesStrict, hasDirective, directives]
  | cons first rest ih =>
    rw [List.flatMap_cons, usesStrict_append, ih]
    constructor
    · rintro (hfirst | ⟨hall, before, q, after, rfl, hbefore, hq⟩)
      · exact ⟨[], first, rest, rfl, List.forall_mem_nil _, hfirst⟩
      · exact ⟨first :: before, q, after, rfl, List.forall_mem_cons.mpr ⟨hall, hbefore⟩, hq⟩
    · rintro ⟨before, q, after, heq, hbefore, hq⟩
      cases before with
      | nil =>
        cases heq
        exact .inl hq
      | cons b before =>
        cases heq
        obtain ⟨hall, hbefore⟩ := List.forall_mem_cons.mp hbefore
        exact .inr ⟨hall, before, q, after, rfl, hbefore, hq⟩

theorem usesStrict_of_operations {body : List Stmt} (h : ∀ s ∈ body, s.IsOperation) :
    usesStrict body = false := by
  cases body with
  | nil => rfl
  | cons s rest =>
    obtain ⟨loc, e, rfl, -⟩ := h s List.mem_cons_self
    rfl

theorem usesStrict_of_readsAs {body body' : List Stmt}
    (h : List.Forall₂ Stmt.ReadsAs body body') : usesStrict body' = false := by
  cases h with
  | nil => rfl
  | @cons s s' _ _ hs _ =>
    cases s' with
    | directive loc raw => cases s <;> exact hs.elim
    | _ => rfl

/-! ## Joining units -/

namespace Minify

/-- The programs that units are read as, the first one as unit `n`. -/
inductive ReadAs (o : ParseOptions) : Nat → List SourceUnit → List Program → Prop where
  | nil {n : Nat} : ReadAs o n [] []
  | cons {n : Nat} {u : SourceUnit} {p : Program} {units : List SourceUnit}
    {programs : List Program} (first : parseFile o n u.text = .ok p)
    (rest : ReadAs o (n + 1) units programs) : ReadAs o n (u :: units) (p :: programs)

variable {o : ParseOptions} {n : Nat} {units : List SourceUnit} {programs : List Program}

theorem readUnits_eq_ok (h : ReadAs o n units programs) (p : Program) :
    ∃ q, readUnits o n p units = .ok q ∧ q.body = p.body ++ programs.flatMap Program.body ∧
      q.comments = p.comments ++ programs.flatMap Program.comments ∧
      (p.shebang = none → (∀ u ∈ programs, u.shebang = none) → q.shebang = none) := by
  induction h generalizing p with
  | nil => exact ⟨p, rfl, (List.append_nil _).symm, (List.append_nil _).symm, fun hp _ => hp⟩
  | cons first rest ih =>
    next n u unit units programs =>
    obtain ⟨q, hq, hbody, hcomments, hshebang⟩ :=
      ih (p.append { unit with files := unit.files ++ [u.name] })
    refine ⟨q, ?_, ?_, ?_, fun hp hall => ?_⟩
    · rw [readUnits, first]
      exact hq
    · rw [hbody, List.flatMap_cons, ← List.append_assoc]
      rfl
    · rw [hcomments, List.flatMap_cons, ← List.append_assoc]
      rfl
    · obtain ⟨hunit, hall⟩ := List.forall_mem_cons.mp hall
      refine hshebang ?_ hall
      show (if _ then unit.shebang else p.shebang) = none
      rw [hunit, hp, ite_self]

end Minify

/-- With all passes off, the units are only read and printed. -/
theorem minify_eq_print [PatternEngine] {o : MinifyOptions} {units : List SourceUnit} {p : Program}
    (hcompress : o.compress = .off) (hrename : o.rename = .off) (hmap : o.sourceMap = .off)
    (h : Minify.readUnits o.parse 0 .empty units = .ok p) :
    ∃ m, minify o units = ([], .ok m) ∧ m.code = print o.output p := by
  refine ⟨⟨print o.output p, none, if o.keepProgram then some p else none, none⟩, ?_, rfl⟩
  unfold minify
  rw [h]
  simp only [Minify.compressStage, hcompress, Toggle.value?, Minify.finish, Minify.renameStage,
    hrename, Minify.outputStage, hmap, ite_self]
  rfl

/-- If all units are accepted, a run that neither compresses nor renames returns the text of the
joined program, which is strict if some unit is and all units before it consist of directives.
If the units consist of expressions, no unit and no statement is strict before or after: the
text is accepted, as the same statements. -/
theorem minify_units [PatternEngine] (o : MinifyOptions) (units : List SourceUnit)
    {programs : List Program} (hcompress : o.compress = .off) (hrename : o.rename = .off)
    (hmap : o.sourceMap = .off) (hread : Minify.ReadAs o.parse 0 units programs) :
    ∃ m p, minify o units = ([], .ok m) ∧ m.code = print o.output p ∧
      p.body = programs.flatMap Program.body ∧
      (usesStrict p.body = true ↔ ∃ before q after, programs = before ++ q :: after ∧
        (∀ b ∈ before, allDirectives b.body = true) ∧ usesStrict q.body = true) ∧
      (o.output = {} → (∀ q ∈ programs, ∀ s ∈ q.body, s.IsOperation) →
        (∀ q ∈ programs, ∀ c ∈ q.comments, Rendered.keeps {} c = false) →
        (∀ q ∈ programs, q.shebang = none) →
        (∀ q ∈ programs, usesStrict q.body = false) ∧
        ∃ p', parse {} m.code = .ok p' ∧ List.Forall₂ Stmt.ReadsAs p.body p'.body ∧
          usesStrict p'.body = false) := by
  obtain ⟨p, hp, hbody, hcomments, hshebang⟩ := Minify.readUnits_eq_ok hread .empty
  obtain ⟨m, hm, hcode⟩ := minify_eq_print hcompress hrename hmap hp
  refine ⟨m, p, hm, hcode, hbody, ?_, fun ho hops hkeeps hnone => ?_⟩
  · rw [hbody]
    exact usesStrict_flatMap programs
  · have hall : ∀ s ∈ p.body, s.IsOperation := by
      rw [hbody]
      exact fun s hs => by
        obtain ⟨q, hq, hs⟩ := List.mem_flatMap.mp hs
        exact hops q hq s hs
    have hdropped : ∀ c ∈ p.comments, Rendered.keeps {} c = false := by
      rw [hcomments]
      intro c hc
      obtain ⟨q, hq, hc⟩ := List.mem_flatMap.mp hc
      exact hkeeps q hq c hc
    obtain ⟨p', hp', hreads, -⟩ := exists_parse_print hall hdropped (hshebang rfl hnone)
    rw [hcode, ho]
    refine ⟨fun q hq => usesStrict_of_operations (hops q hq), p', hp', hreads, ?_⟩
    exact usesStrict_of_readsAs hreads

def Program.isThis : Program → Bool
  | ⟨_, _, [.expr _ (.this _)], [], none, _⟩ => true
  | _ => false

theorem exists_thisUnit (n : Nat) (text : String)
    (h : (parseFile {} n text).toOption.any Program.isThis = true) :
    ∃ p, parseFile {} n text = .ok p ∧ (∀ s ∈ p.body, s.IsOperation) ∧
      (∀ c ∈ p.comments, Rendered.keeps {} c = false) ∧ p.shebang = none := by
  cases hrun : parseFile {} n text with
  | error e =>
    rw [hrun] at h
    cases h
  | ok p =>
    rw [hrun] at h
    replace h : p.isThis = true := h
    refine ⟨p, rfl, ?_⟩
    unfold Program.isThis at h
    split at h
    · exact ⟨List.forall_mem_singleton.mpr ⟨_, _, rfl, .this⟩, List.forall_mem_nil _, rfl⟩
    · cases h

/-- Units of expressions are read again, and a directive of the first unit makes the joined
program strict. -/
theorem thisUnits_reread :
    (∃ m p', minify { compress := .off, rename := .off }
        [⟨"a.js", "this"⟩, ⟨"b.js", "(this)"⟩] = ([], .ok m) ∧
      parse {} m.code = .ok p' ∧ usesStrict p'.body = false) ∧
    ∃ m p, minify { compress := .off, rename := .off }
        [⟨"a.js", "'use strict'"⟩, ⟨"b.js", "this"⟩] = ([], .ok m) ∧
      m.code = print {} p ∧ usesStrict p.body = true := by
  obtain ⟨p, hp, hops, hkeeps, hnone⟩ := exists_thisUnit 0 "this" (by decide +kernel)
  obtain ⟨q, hq, hops', hkeeps', hnone'⟩ := exists_thisUnit 1 "(this)" (by decide +kernel)
  obtain ⟨strict, hstrict, huses⟩ := exists_ok_of_any (x := parseFile {} 0 "'use strict'")
    (f := (usesStrict ·.body)) (by decide +kernel)
  obtain ⟨r, hr, _⟩ := exists_thisUnit 1 "this" (by decide +kernel)
  constructor
  · obtain ⟨m, _, hm, -, -, -, hreread⟩ := minify_units { compress := .off, rename := .off }
      [⟨"a.js", "this"⟩, ⟨"b.js", "(this)"⟩] rfl rfl rfl (.cons hp (.cons hq .nil))
    obtain ⟨-, p', hp', -, hsloppy⟩ := hreread rfl
      (List.forall_mem_cons.mpr ⟨hops, List.forall_mem_singleton.mpr hops'⟩)
      (List.forall_mem_cons.mpr ⟨hkeeps, List.forall_mem_singleton.mpr hkeeps'⟩)
      (List.forall_mem_cons.mpr ⟨hnone, List.forall_mem_singleton.mpr hnone'⟩)
    exact ⟨m, p', hm, hp', hsloppy⟩
  · obtain ⟨m, p, hm, hcode, -, hiff, -⟩ := minify_units { compress := .off, rename := .off }
      [⟨"a.js", "'use strict'"⟩, ⟨"b.js", "this"⟩] rfl rfl rfl (.cons hstrict (.cons hr .nil))
    exact ⟨m, p, hm, hcode, hiff.mpr ⟨[], strict, [r], rfl, List.forall_mem_nil _, huses⟩⟩

/-- What is written for a text that is accepted, and whether that is accepted. -/
def rewritten (text : String) : Option (String × Bool) :=
  (parse {} text).toOption.map fun p => (print {} p, (parse {} (print {} p)).toOption.isSome)

/-- The directive of one unit governs the next one, which has a `with`. -/
theorem strictUnit_refuses_with :
    rewritten "'use strict'" = some ("\"use strict\";", true) ∧
    rewritten "with(a)b" = some ("with(a)b;", true) ∧
    (minify { compress := .off, rename := .off }
      [⟨"a.js", "'use strict'"⟩, ⟨"b.js", "with(a)b"⟩]).2.toOption.map (fun m =>
        (m.code, (parse {} m.code).toOption.isSome))
          = some ("\"use strict\";with(a)b;", false) := by
  decide +kernel

end Laconic
