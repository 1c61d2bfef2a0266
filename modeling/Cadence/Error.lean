import Cadence.Compile
import Cadence.Document.Reader
import Cadence.Export
import Cadence.Performance.Console
import Cadence.Performance.Playback
import Cadence.Performance.Sampler
import Cadence.Yaml.Writer

/-!
# Errors

Everything that can stop a request, in one type, with the wording that users see.
-/

namespace Cadence

/-- Why a request is not carried out. -/
inductive Error where
  | read (e : ReadError)
  | compile (d : Defect)
  | exporting (e : ExportError)
  | starter (path : Path) (failure : Failure)
  | play (e : PlayError)
  | sampler (e : SamplerError)
  | print (fault : PrintFault)
  /-- no port can be opened -/
  | port (reason : String)
  /-- a port that is opened with a wrong value -/
  | portValue (reason : String)
  | part (e : NotationError)
  | unknownChord (token : Name)
  /-- an argument of the wrong form -/
  | argument
  /-- the output folder cannot be made -/
  | folder (failure : Failure)
  /-- a number that the answer would have to show has too many digits -/
  | tooLong (e : Yaml.TooLong)
  deriving Repr, DecidableEq

namespace Error

/-- The name of the kind of an error, if users are told kinds of it. -/
def kind? : Error → Option String
  | read e => if e.isParseFailure then some "DeserializeError" else none
  | compile .noPatterns => some "NoPatternsError"
  | compile .emptyPatterns => some "EmptyPatternsError"
  | compile (.badSignature _) => some "BadTimeSignatureError"
  | compile (.unreachable _ _ _) => some "UnreachableTimeError"
  | compile (.timeReverse _ _ _) => some "TimeReverseError"
  | exporting e => if e.fault.isExportFailure then some "ExportMidiError" else none
  | starter _ failure => if failure.isSystem then some "ExportTemplateError" else none
  | play .noPatterns => some "NoPatternsError"
  | play (.notFound _) => some "NoFoundPatternError"
  | port _ => some "LoadSamplerError"
  | _ => none

/-- The data that an error carries, by name. -/
def data : Error → List (String × Value)
  | compile (.unreachable time index chord) | compile (.timeReverse time index chord) =>
    [("time", .text time.text), ("index", .int index), ("chord", .ofName chord)]
  | compile (.badSignature s) => [("signature", .text s.text)]
  | play (.notFound pattern) => [("pattern", .text pattern)]
  | _ => []

/-- The first part of the message, which is worded here. -/
def headline : Error → Name
  | read (.notMapping kind) => "Failed to parse composition: " ++ (ReadError.notMapping kind).detail
  | read e => if e.isParseFailure then "Failed to parse composition: " else e.detail
  | compile d => d.message
  | exporting e =>
    let reason : Name := match e.fault with
      | .file (.refused _ _) => ""
      | fault => fault.message
    if e.fault.isExportFailure then s!"Failed to export MIDI to '{e.path.text}': " ++ reason else reason
  | starter path failure =>
    if failure.isSystem then s!"Failed to export template to '{path.text}': " else failure.message
  | play e => e.message
  | sampler e => e.message
  | print fault => fault.message
  | port reason => ("Failed to load sampler: " ++ reason : String)
  | portValue reason => reason
  | part e => e.message
  | unknownChord token => "Unknown chord: " ++ token
  | argument => "An argument has the wrong form."
  | folder failure => failure.message
  | tooLong e => e.message

/-- The rest of the message, which the reader of a format or the file system adds. -/
def detail? : Error → Option String
  | read (.notMapping _) => none
  | read e => if e.isParseFailure then some e.detail else none
  | exporting ⟨_, .file (.refused refusal path)⟩ => some (Failure.refused refusal path).message
  | starter _ failure => if failure.isSystem then some failure.message else none
  | _ => none

/-- The whole message. -/
def message (e : Error) : Name := e.headline ++ (e.detail?.getD "" : String)

end Error

/-! ## Loading -/

/-- Reads and compiles a text. -/
def Composition.ofText (text : String) (picks : Picks) : Except Error Composition := do
  let d ← (Document.ofText text).mapError .read
  (d.compile picks).1.mapError .compile

/-- Reads and compiles a file. -/
def Composition.ofFile (t : Tree) (p : Path) (picks : Picks) (load : Yaml.Loader := Yaml.read) :
    Except Error Composition := do
  let d ← (Document.ofFile t p load).mapError .read
  (d.compile picks).1.mapError .compile

/-- Reads, compiles and exports a file, next to it unless a folder is given. -/
def exportFile (t : Tree) (p : Path) (output? : Option Path) (picks : Picks)
    (load : Yaml.Loader := Yaml.read) : Except Error (List Path) × Tree :=
  match Composition.ofFile t p picks load with
  | .error e => (.error e, t)
  | .ok c =>
    let (paths, t) := c.exportTo t (output?.getD p.parent)
    (paths.mapError .exporting, t)

end Cadence
