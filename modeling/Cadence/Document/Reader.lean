import Cadence.Document.Canonical
import Cadence.Document.Check
import Cadence.Files.Access
import Cadence.Yaml.Reader
import Cadence.Yaml.Writer

/-!
# Reading and writing documents

A document is read from plain data, from text or from a file, and written as text.
-/

namespace Cadence

/-- Why something is no document. -/
inductive ReadError where
  /-- the file cannot be read -/
  | file (failure : Failure)
  /-- the bytes of the file are no text -/
  | encoding
  /-- the text has no value -/
  | yaml (problem : Yaml.Problem)
  /-- the value is no mapping, but of another kind -/
  | notMapping (kind : String)
  | issues (issues : List Issue)
  deriving Repr, DecidableEq

namespace ReadError

/-- The faults of a document, as against what is foreign to its notation, bytes that are no text and
paths that no file can have. -/
def isParseFailure : ReadError → Bool
  | file failure => failure.isSystem
  | encoding => false
  | yaml problem => !problem.isForeign
  | notMapping _ | issues _ => true

/-- The way to an issue. -/
def showPath (path : List Step) : String :=
  ".".intercalate (path.map fun | .field name => name | .index n => Nat.repr n)

/-- What is said about an error in detail. -/
def detail : ReadError → String
  | file failure => failure.message
  | encoding => "the file is not UTF-8"
  | yaml problem => problem.message
  | notMapping kind => "expected a mapping, got " ++ kind
  | issues is => "; ".intercalate (is.map fun i => showPath i.path ++ ": " ++ i.flaw.name)

end ReadError

namespace Document

/-- Reads a document from plain data. -/
def ofValue : Value → Except ReadError Document
  | .map entries => (Document.check entries).mapError .issues
  | v => .error (.notMapping v.kind)

/-- Reads a document from text. -/
def ofText (text : String) (load : Yaml.Loader := Yaml.read) : Except ReadError Document := do
  ofValue (← (load text).mapError .yaml)

/-- Reads a document from the bytes of a file. -/
def ofBytes (bytes : List UInt8) (load : Yaml.Loader := Yaml.read) : Except ReadError Document :=
  match Tree.textOf? bytes with
  | some text => ofText text load
  | none => .error .encoding

/-- Reads a document from a file. -/
def ofFile (t : Tree) (p : Path) (load : Yaml.Loader := Yaml.read) : Except ReadError Document := do
  ofBytes (← (t.read p).mapError .file) load

/-- A document as text, if every number in it can be written. -/
def toText (d : Document) : Except Yaml.TooLong String := Yaml.write? d.toValue

end Document

end Cadence
