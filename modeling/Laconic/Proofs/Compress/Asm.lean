import Laconic.Proofs.Compress.Lasting

/-!
# Functions that are left alone

A function that says `"use asm"` is not rewritten.  Each function of a compressed program
stems from one of the program, and if that one says `"use asm"`, it is still there as it was,
but for two things.  The removal of what is not used does not ask for directives where it drops
the name of a function expression and parameters at the end, so both can go.
-/

namespace Laconic

/-- Whether a function is to be left alone. -/
def Func.saysAsm (f : Func) : Bool := hasDirective f.body.body "use asm"

/-- What becomes of a function that is left alone.  Its names get their symbols anew, and where
compression is to drop what is not used, its own name and parameters at the end can go.  A
method is not `named` by itself. -/
inductive Func.LeftAlone (o : CompressOptions) (f : Func) : Func → Prop where
  | refl : f.LeftAlone o f
  | bound {g : Func} (h : f.LeftAlone o g) (named : Bool) (symbols : List Nat) :
      f.LeftAlone o ((NameMap.ofIdent Program.bindNext).func named g symbols).1
  | dropped {g : Func} (h : f.LeftAlone o g) (hunused : o.unused = true) {id : Option Ident}
      {ps : List Pat} (hid : id = g.id ∨ o.keepFunctionNames = false ∧ id = none)
      (hps : ps = g.params ∨ o.keepParams = false ∧ ps <+: g.params) :
      f.LeftAlone o { g with id, params := ps }

theorem directives_bound (body : List Stmt) :
    Gives ((NameMap.ofIdent Program.bindNext).stmts body) fun new =>
      directives new = directives body := by
  induction body with
  | nil => exact .pure rfl
  | cons s rest ih =>
    intro symbols
    cases s with
    | directive loc raw => exact congrArg (directiveValue raw :: ·) (ih symbols)
    | exportNamed loc specifiers source => cases source <;> rfl
    | _ => rfl

theorem Func.LeftAlone.saysAsm_eq {o : CompressOptions} {f g : Func} (h : f.LeftAlone o g) :
    g.saysAsm = f.saysAsm := by
  induction h with
  | refl => rfl
  | @bound g _ named symbols ih =>
    obtain ⟨loc, id, isAsync, isGenerator, ps, ⟨bodyLoc, body⟩⟩ := g
    have hbody : Gives ((NameMap.ofIdent Program.bindNext).func named
          ⟨loc, id, isAsync, isGenerator, ps, ⟨bodyLoc, body⟩⟩) fun new =>
        directives new.body.body = directives body :=
      Gives.bind .unknown fun _ _ => Gives.bind .unknown fun _ _ =>
        ((directives_bound body).bind fun _ h => .pure h : Gives _ fun b : Block =>
          directives b.body = directives body).bind fun _ h => .pure h
    exact (congrArg (List.contains · "use asm") (hbody symbols)).trans ih
  | dropped _ _ _ _ ih => exact ih

/-! ## Compression -/

/-- A function stands for one of a program, at the same place. -/
def Program.StemsFrom (o : CompressOptions) (p : Program) (g : Func) : Prop :=
  ∃ f, .func f ∈ p.nodes ∧ g.loc = f.loc ∧ (f.saysAsm = true → f.LeftAlone o g)

/-- The vocabulary of the functions that stem from a program. -/
def Program.functionVocabulary (o : CompressOptions) (p : Program) : Vocabulary where
  function := p.StemsFrom o
  unnamed := False
  jumps := False
  exports := True

theorem Program.stmts_functionVocabulary (o : CompressOptions) (p : Program) :
    (p.functionVocabulary o).stmts {} p.body := by
  refine (Vocabulary.told_program {} false p).of trivial nofun fun n hn => ?_
  cases n with
  | func f => exact ⟨f, hn, rfl, fun _ => .refl⟩
  | expr e => cases e <;> first | trivial | exact False.elim
  | «class» c => exact False.elim
  | _ => trivial

theorem Program.lasting_functionVocabulary (o : CompressOptions) (p : Program) :
    (p.functionVocabulary o).Lasting o where
  named := by
    refine ⟨fun named g => ?_⟩
    rintro ⟨f, hf, hloc, hasm⟩ symbols
    refine ⟨f, hf, ?_, fun h => (hasm h).bound named symbols⟩
    obtain ⟨_, _, _, _, _, ⟨_, _⟩⟩ := g
    exact hloc
  rewritten g := by
    rintro ⟨f, hf, hloc, hasm⟩ hrewritten ps body
    refine ⟨f, hf, hloc, fun h => ?_⟩
    -- a function that is rewritten does not stem from one that is to be left alone
    have hsays : g.saysAsm = true := (hasm h).saysAsm_eq.trans h
    exact absurd hsays (Bool.eq_false_iff.mp hrewritten)
  dropped hunused g := by
    rintro ⟨f, hf, hloc, hasm⟩ id ps hid hps
    exact ⟨f, hf, hloc, fun h => (hasm h).dropped hunused hid hps⟩

/-- Each function of a compressed program stands for one of the program, at the same place.
If that one says `"use asm"`, it is left alone: it keeps its body and all else that it says, but
its name and parameters at the end can be dropped as not used. -/
theorem asmFunction_of_compress {o : CompressOptions} {ie8 : Bool} {p : Program} {g : Func}
    (hg : .func g ∈ (compress o ie8 p).program.nodes) :
    ∃ f, .func f ∈ p.nodes ∧ g.loc = f.loc ∧ (f.saysAsm = true → f.LeftAlone o g) := by
  have hstmts := Vocabulary.stmts_compress (p.stmts_functionVocabulary o)
    (p.lasting_functionVocabulary o) ie8
  exact (Vocabulary.told_program {} false _).own hstmts _ hg

/-- The function `g` loses its name and is left alone otherwise. -/
theorem asmFunction_of_compress_expression :
    ∃ p g f, parse {} "x=function g(a)\x7b\"use asm\";return 1+1\x7d" = .ok p ∧
      .func g ∈ (compress { collapseVars := false } false p).program.nodes ∧
      .func f ∈ p.nodes ∧ g.loc = f.loc ∧ f.saysAsm = true ∧
      f.LeftAlone { collapseVars := false } g := by
  have hrun : (parse {} "x=function g(a)\x7b\"use asm\";return 1+1\x7d").toOption.any (fun p =>
      p.nodes.all (fun | .func f => f.saysAsm | _ => true) &&
        (compress { collapseVars := false } false p).program.nodes.any
          fun | .func _ => true | _ => false) = true := by
    decide +kernel
  obtain ⟨p, hp, hrun⟩ := exists_ok_of_any hrun
  obtain ⟨hall, hany⟩ := Bool.and_eq_true_iff.mp hrun
  obtain ⟨n, hn, hfunc⟩ := List.any_eq_true.mp hany
  cases n with
  | func g =>
    obtain ⟨f, hf, hloc, hasm⟩ := asmFunction_of_compress hn
    have hsays : f.saysAsm = true := List.all_eq_true.mp hall _ hf
    exact ⟨p, g, f, hp, hn, hf, hloc, hsays, hasm hsays⟩
  | _ => cases hfunc

def Program.functionHeads (p : Program) : List (Option String × Nat) :=
  p.nodes.filterMap fun
    | .func f => some (f.id.map (·.name), f.params.length)
    | _ => none

/-- A function expression that says `"use asm"` loses a name that is not used, and, where
parameters are not kept, a parameter that is not used. -/
theorem asmFunction_loses_name :
    (parse {} "x=function g(a)\x7b\"use asm\"\x7d").toOption.map (fun p =>
      (p.functionHeads,
        (compress { collapseVars := false } false p).program.functionHeads,
        (compress { collapseVars := false, keepParams := false } false p).program.functionHeads))
      = some ([(some "g", 1)], [(none, 1)], [(none, 0)]) := by
  decide +kernel

end Laconic
