import Laconic.Main
import Laconic.Proofs.Number.Exact
import Laconic.Proofs.Scope.Enclosed
import Laconic.Proofs.Scope.Repeat
import Laconic.Proofs.Rename.Capture
import Laconic.Proofs.Rename.Consistency
import Laconic.Proofs.Rename.KeptNames
import Laconic.Proofs.Rename.Numbering
import Laconic.Proofs.Compress.Asm
import Laconic.Proofs.Compress.Discard
import Laconic.Proofs.Compress.Ends
import Laconic.Proofs.Compress.Jumps
import Laconic.Proofs.Compress.Variables
import Laconic.Proofs.Output.Units
import Laconic.Proofs.SourceMap.Lookup
import Laconic.Proofs.Compress.Unreachable
