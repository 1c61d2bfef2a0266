import Cadence.Error
import Cadence.Json
import Cadence.Performance.Log

/-!
# Tools

Requests with a reply in plain data: what chords there are, what a chord sounds like, and what becomes
of a composition given as text. A reply says in its status whether the request succeeded.
-/

namespace Cadence

/-! ## Loose arguments -/

namespace Value

/-- One character of a text, or half of one, as a text. -/
def part : Point → Value
  | .char c => text (String.singleton c)
  | .half h => brokenText ⟨"", h, []⟩

/-- What a value holds when it is gone through: items, names or characters. -/
def parts? : Value → Option (List Value)
  | list items => some items
  | map entries => some (entries.map fun e => text e.1)
  | text s => some (s.toList.map fun c => text (String.singleton c))
  | brokenText b => some (b.points.map part)
  | _ => none

/-- A value as a whole number. What stands after a point is dropped, and text is read. -/
def looseInt : Value → Except Error Int
  | int n => .ok n
  | bool b => .ok (if b then 1 else 0)
  | float x =>
    match x.truncate? with
    | some n => .ok n
    | none => .error .argument
  | text s => (readPart s.toList).mapError .part
  | _ => .error .argument

/-- A value as a custom chord: a name and intervals. -/
def looseChord (v : Value) : Except Error (Name × List Int) :=
  match v.parts? with
  | some [name, intervals] =>
    match intervals.parts? with
    | some intervals => do return (name.asName, ← intervals.mapM looseInt)
    | none => .error .argument
  | _ => .error .argument

/-- A value as custom chords. One that is not given has none. -/
def looseChords (v : Value) : Except Error CustomChords :=
  if !v.isGiven then .ok []
  else match v.parts? with
    | some chords => chords.mapM looseChord
    | none => .error .argument

end Value

/-! ## Requests -/

/-- A request to a tool. -/
inductive Tool where
  /-- every built-in chord -/
  | chords
  /-- the pitches of a chord in a key, with a transposition and custom chords -/
  | resolve (chord key : Name) (transpose : Int) (customs : Value)
  /-- the starter document, also saved under a name unless that is empty -/
  | starter (saveAs : String)
  /-- the timeline of a composition -/
  | validate (text : String)
  /-- the score files of a composition -/
  | scores (text : String)
  /-- what happens when a composition is played from a time, written out, in a pattern -/
  | render (text start : String) (pattern? : Option PatternRef) (clock : Bool)
  deriving Repr

namespace Tool

/-- A reply to a request that succeeded. -/
def success (fields : List (String × Value)) : Value := .map (("status", .text "success") :: fields)

/-- Every built-in chord with its intervals. -/
def chordsReply : Value :=
  success [("count", .int Chord.table.length),
    ("chords", Value.ofList (fun (name, intervals) =>
      .map [("name", .ofName name), ("intervals", Value.ints intervals)]) Chord.table)]

/-- The pitches of a chord, as a composition would sound it. Its intervals are shown as they are given,
so they have to be written. -/
def resolveChord (chord key : Name) (transpose : Int) (customs : Value) (picks : Picks) :
    Except Error Value := do
  let customs ← customs.looseChords
  let intervals := (Chord.resolve customs picks chord 0).1
  if intervals.isEmpty then .error (.unknownChord chord)
  if let some e := Yaml.tooLong? intervals then .error (.tooLong e)
  let pitches := soundingPitches intervals (Key.parse key) transpose
  return success [("chord", .ofName chord), ("intervals", Value.ints intervals),
    ("pitches", Value.ints pitches), ("notes", Value.ofList (.text <| spellPitch ·) pitches)]

/-- The starter document, and the path that it was saved at. -/
def starterReply (t : Tree) (output : Path) (saveAs : String) : Except Error Value × Tree :=
  let fields := [("template", Value.text Document.starter)]
  if saveAs = "" then (.ok (success fields), t)
  else
    match t.makeFolders true output with
    | (.error failure, t) => (.error (.folder failure), t)
    | (.ok (), t) =>
      let path := output.child saveAs
      match Document.exportStarter t path with
      | (.error failure, t) => (.error (.starter path failure), t)
      | (.ok path, t) =>
        (.ok (success (fields ++ [("path", .text path.text),
          ("message", .text s!"Exported template to {path.text}.")])), t)

/-- A pattern as plain data. -/
def patternValue (p : Pattern) : Value :=
  .map [("name", .ofName p.name), ("bpm", .int p.bpm),
    ("signature", Value.ints [p.signature.numerator, p.signature.denominator]),
    ("events", Value.ofList (fun e => .map e.entries) p.events)]

/-- A timeline as plain data. -/
def timelineValue (c : Composition) : Value :=
  .map [("name", .ofName c.name), ("patterns", Value.ofList patternValue c.patterns)]

/-- The timeline of a text, if every number in it can be written. -/
def validateText (text : String) (picks : Picks) : Except Error Value := do
  let c ← Composition.ofText text picks
  if let some e := Yaml.tooLong? (Yaml.numbers (timelineValue c)) then .error (.tooLong e)
  return success [("valid", .bool true), ("composition", timelineValue c),
    ("message", .ofName
      ("Composition '" ++ c.name ++
        s!"' compiled with {Nat.repr c.patterns.length} pattern(s)."))]

/-- What is said when score files were written to a folder. -/
def exportedMessage (count : Nat) (name : String) (folder : Path) : String :=
  s!"Exported {Nat.repr count} pattern(s) of '{name}' to {folder.text}."

/-- Writes the score files of a text. -/
def exportText (t : Tree) (output : Path) (text : String) (picks : Picks) :
    Except Error Value × Tree :=
  match Composition.ofText text picks with
  | .error e => (.error e, t)
  | .ok c =>
    match c.exportTo t output with
    | (.error e, t) => (.error (.exporting e), t)
    | (.ok paths, t) =>
      (.ok (success [("paths", Value.ofList (.text <| Path.text ·) paths),
        ("message", .text (exportedMessage paths.length c.name.text (c.folder output)))]), t)

/-- What a listener hears of a text. Every time of the clock is written, also where the log leaves the
clock out. -/
def renderText (text start : String) (pattern? : Option PatternRef) (clock : Bool) (picks : Picks) :
    Except Error Value := do
  let c ← Composition.ofText text picks
  let start ← (Time.parse start).mapError .part
  let (cues, error?) := c.play false start pattern?
  if let some e := error? then .error (.play e)
  let heard := Cue.callbacks cues
  if let some e := Yaml.tooLong? (heard.flatMap Callback.numbers) then .error (.tooLong e)
  return success [("name", .ofName c.name), ("events", .int (Callback.events heard).length),
    ("end_time", ((Callback.lastTime? heard).map fun t => .text t.text).getD .null),
    ("log", .list (Callback.log clock heard))]

/-- Carries out a request, with a folder for output. -/
def run (t : Tree) (output : Path) (picks : Picks) : Tool → Except Error Value × Tree
  | chords => (.ok chordsReply, t)
  | resolve chord key transpose customs => (resolveChord chord key transpose customs picks, t)
  | starter saveAs => starterReply t output saveAs
  | validate text => (validateText text picks, t)
  | scores text => exportText t output text picks
  | render text start pattern? clock => (renderText text start pattern? clock picks, t)

/-- The reply to a request that failed, with a message. Errors of a kind carry their data; a text that
does not compile is not valid. -/
def failure (tool : Tool) (e : Error) (message? : Option Name) : Value :=
  let verdict := match tool, e.kind? with
    | validate _, some _ => [("valid", Value.bool false)]
    | _, _ => []
  .map ([("status", .text "error")] ++ (e.kind?.map fun kind => ("error", .text kind)).toList ++
    (message?.map fun message => ("message", .ofName message)).toList ++ e.data ++ verdict)

/-- Carries out a request and replies. -/
def reply (t : Tree) (output : Path) (picks : Picks) (tool : Tool) : Value × Tree :=
  match tool.run t output picks with
  | (.ok v, t) => (v, t)
  | (.error e, t) => (tool.failure e (some e.message), t)

end Tool

end Cadence
