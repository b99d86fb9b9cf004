import Laconic.Compress.Body
import Laconic.Compress.Expression
import Laconic.Compress.Unused
import Laconic.Scope.Fixed

/-!
# Compression

A pass resolves the names of the program, applies all rules from the inside out
and removes the declarations that are not used any more.  Passes are repeated as
long as the program gets smaller, but only so many times.

The body of a function that takes the place of a call is rewritten in turn.  Each
such expansion is of another function than those it is in, so no more than the
number of symbols are inside each other.
-/

namespace Laconic

namespace Compressor

/-- Whether an expression is left alone: what is deleted keeps its name. -/
def beforeExpr (e : Expr) : Action Expr :=
  match e with
  | .unary _ .delete (.ident _) => .stop
  | _ => .keep

/-- Notes that a function begins. -/
def enter (strict : Bool) : Compressing Unit :=
  modify fun p => { p with strict := (p.strict.headD false || strict) :: p.strict }

def leave : Compressing Unit := modify fun p => { p with strict := p.strict.tail }

/-- The rewriter of a pass.  `depth` expansions of calls can still be inside each
other, and those of the functions in `inlining` are around the present place. -/
def rewriter (c : Compressor) : Nat → List Nat → Rewriter Progress
  | depth, inlining =>
    { beforeExpr := fun e => return beforeExpr e
      afterExpr := fun e =>
        c.optimizeExpr inlining
          (fun id value =>
            match depth with
            | 0 => return value
            | depth + 1 => (rewriter c depth (id :: inlining)).expr 0 value) e
      afterStmt := c.optimizeStmt
      afterStmts := c.optimizeBody
      enterFunction := fun f => do
        if hasDirective f.body.body "use asm" then return false
        enter (hasDirective f.body.body "use strict")
        return true
      leaveFunction := fun _ => leave
      enterArrow := fun _ => do
        enter false
        return true
      leaveArrow := fun _ => leave }

end Compressor

/-- What compression has come to: the program, the warnings in order, and why it
stopped early, if it did. -/
structure Compressed where
  program : Program
  warnings : List Warning
  error : Option Error

/-- One pass of compression; the warnings, the last one first, are added to those
so far.  `strict` says whether the program as a whole is strict. -/
def compressPass (o : CompressOptions) (ie8 strict : Bool) (p : Program)
    (warnings : List Warning) : Except (Program × Error) (Program × List Warning) := do
  let toplevel := o.toplevel || p.kind == .module
  let resolved (p : Program) : Except (Program × Error) (Program × ScopeTree) :=
    (resolve ie8 p).mapError fun e => (p, e)
  let (p, tree) ← resolved p
  let tree := if o.reduceVars then tree.markFixed p toplevel else tree
  let c : Compressor := { options := o, tree, toplevel, ie8, fileName := p.fileName }
  let (p, progress) := (c.rewriter tree.symbols.size []).program 0 p
    { warnings, strict := [strict] }
  if o.unused then
    let (p, tree) ← resolved p
    let r : Remover := { c with tree, written := Unused.writtenSymbols p }
    let (p, progress) := r.rewriter.program 0 p progress
    return (p, progress.warnings)
  else return (p, progress.warnings)

/-- Repeats passes as long as the program gets smaller than `size`, at most so
many times. -/
def compressPasses (o : CompressOptions) (ie8 strict : Bool) :
    Nat → Nat → Program → List Warning → Compressed
  | 0, _, p, warnings => ⟨p, warnings.reverse, none⟩
  | passes + 1, size, p, warnings =>
    match compressPass o ie8 strict p warnings with
    | .error (p, e) => ⟨p, [], some e⟩
    | .ok (p, warnings) =>
      if size ≤ p.size then ⟨p, warnings.reverse, none⟩
      else compressPasses o ie8 strict passes p.size p warnings

/-- Compresses a program.  One that says `"use asm"` is left alone. -/
def compress (o : CompressOptions) (ie8 : Bool) (p : Program) : Compressed :=
  if hasDirective p.body "use asm" then ⟨p, [], none⟩
  else
    let strict := p.kind == .module || hasDirective p.body "use strict"
    compressPasses o ie8 strict (max o.passes 1) p.size p []

end Laconic
