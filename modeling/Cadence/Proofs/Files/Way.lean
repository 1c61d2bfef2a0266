import Cadence.Proofs.Files.Change

/-!
# The way of a path

A walk depends on the places that it comes by and on no others. Where these are kept the same file is
read; and where the way enters a folder that was emptied, it ends in that folder or nowhere.
-/

namespace Cadence.Tree

variable {t t' : Tree} {p : Path} {k m : Nat} {here middle place place' folder q : Place}
  {name target : String} {names rest : List String} {bytes : List UInt8}

end Cadence.Tree
