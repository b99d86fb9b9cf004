import Laconic.Proofs.Compress.Lasting
import Laconic.Proofs.Grammar.Jumps

/-!
# Jumps of compressed programs

A rewritten statement stands where the old one stood, but its parts may move: the body of a
switch is spliced into the list around it, a loop that never runs is dropped, a leading `break`
becomes part of the test of its loop, and a label is dropped with an empty body. The vocabulary of
jumps is kept by each of these rules at every place of the program, so what the parser
guarantees for the source holds of each program that compression returns.
-/

namespace Laconic

open Vocabulary (jumping)

/-- Being jumped to says nothing about functions, so their names and parameters can go. -/
theorem Vocabulary.lasting_jumping (o : CompressOptions) : jumping.Lasting o where
  named := ⟨fun _ _ _ => .unknown⟩
  rewritten _ _ _ _ _ := trivial
  dropped _ _ _ _ _ _ _ := trivial

theorem Program.JumpsHaveTargets.compress {p : Program} (h : p.JumpsHaveTargets)
    (o : CompressOptions) (ie8 : Bool) : (compress o ie8 p).program.JumpsHaveTargets :=
  Vocabulary.stmts_compress h (Vocabulary.lasting_jumping o) _

/-- Compression keeps the targets of jumps: in the program it returns each `break` is inside a
loop or a switch, or names a label around it, and each `continue` is inside a loop, or names the
label of a loop around it, always in the same function. -/
theorem jumpsHaveTargets_of_compress {options : ParseOptions} {text : String} {p : Program}
    (o : CompressOptions) (ie8 : Bool) (h : parse options text = .ok p) :
    (compress o ie8 p).program.JumpsHaveTargets :=
  (jumpsHaveTargets_of_parse h).compress o ie8

/-- The label of the loop is still around the `continue` in the switch. -/
theorem jumpsHaveTargets_of_compress_switch :
    ∃ p, parse {} "a:for(;;)switch(x)\x7bcase 1:continue a;case 2:break\x7d" = .ok p ∧
      (compress { collapseVars := false } false p).program.nodes.any
        (fun | .stmt (.continue _ (some _)) => true | _ => false) = true ∧
      (compress { collapseVars := false } false p).program.JumpsHaveTargets := by
  have hrun : (parse {} "a:for(;;)switch(x)\x7bcase 1:continue a;case 2:break\x7d").toOption.any
      (fun p => (compress { collapseVars := false } false p).program.nodes.any
        (fun | .stmt (.continue _ (some _)) => true | _ => false)) = true := by
    decide +kernel
  obtain ⟨p, hp, hrun⟩ := exists_ok_of_any hrun
  exact ⟨p, hp, hrun, jumpsHaveTargets_of_compress _ _ hp⟩

end Laconic
