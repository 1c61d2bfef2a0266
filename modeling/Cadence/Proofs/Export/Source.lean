import Cadence.Error
import Cadence.Proofs.Export.Frame
import Cadence.Proofs.Files.Way

/-!
# The source of an export

A file that is exported stays as it is unless the way to it leads into the folder that the export
replaces. Nothing keeps the two apart: a composition may well lie in the folder that is named after it.
-/

namespace Cadence

open Cadence.Tree

variable {t t' : Tree} {p parent : Path} {c : Composition} {picks : Picks} {output? : Option Path}
  {bytes : List UInt8}

namespace Composition

/-! ## What an export leaves -/

end Composition

/-! ## Exporting a file -/

end Cadence
