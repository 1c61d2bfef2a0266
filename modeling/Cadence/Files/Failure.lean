import Cadence.Files.Path
import Cadence.Text.Name

/-!
# Failures of the file system
-/

namespace Cadence

/-- Why the file system refuses an operation. -/
inductive Refusal where
  | missing
  | taken
  | notFolder
  | isFolder
  | nameTooLong
  | tooManyLinks
  deriving Repr, DecidableEq

/-- A failure at a path. -/
inductive Failure where
  | refused (refusal : Refusal) (path : Path)
  /-- a link where only a folder may be removed -/
  | isLink
  /-- links that lead back to themselves -/
  | loop (path : Path)
  /-- a path that no file system can have -/
  | unusable
  /-- a path without bytes -/
  | broken (path : Broken)
  deriving Repr, DecidableEq

namespace Refusal

/-- The number and the text that go with a refusal. -/
def describe : Refusal → Nat × String
  | missing => (2, "No such file or directory")
  | taken => (17, "File exists")
  | notFolder => (20, "Not a directory")
  | isFolder => (21, "Is a directory")
  | nameTooLong => (36, "File name too long")
  | tooManyLinks => (40, "Too many levels of symbolic links")

end Refusal

namespace Failure

def message : Failure → String
  | refused refusal path =>
    let (number, text) := refusal.describe
    s!"[Errno {Nat.repr number}] {text}: {Text.quoted path.text}"
  | isLink => "Cannot call rmtree on a symbolic link"
  | loop path => "Symlink loop from " ++ Text.quoted path.text
  | unusable => "embedded null byte"
  | broken path => path.noBytes

/-- Whether the file system itself reports the failure. -/
def isSystem : Failure → Bool
  | refused _ _ | isLink => true
  | loop _ | unusable | broken _ => false

end Failure

end Cadence
