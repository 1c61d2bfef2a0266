import Cadence.Error
import Cadence.Options
import Cadence.Performance.Console
import Cadence.Tools

/-!
# The command line

Four commands: play a composition, export it, write the starter document, list the chords.
-/

namespace Cadence

open Options

/-- A command with its arguments. -/
inductive Command where
  | play (file : String) (metronome : Bool) (tickers : Tickers) (start : Time)
      (pattern? port? : Option String)
  | exporting (file : String) (output? : Option String)
  | starter (path : String)
  | chords
  deriving Repr, DecidableEq

/-- A command line. -/
structure Invocation where
  debug : Bool
  command : Command
  deriving Repr, DecidableEq

/-! ## Reading the command line -/

namespace Invocation

/-- A time that can be read. -/
def isTime (text : String) : Bool := (Time.parse text).isOk

def playUsage : Usage where
  flags := [{ name := "--metronome" }, { name := "--ticker-bar" }, { name := "--ticker-beat" },
    { name := "--ticker-interval" }, { name := "--from", takesValue := true, accepts := isTime },
    { name := "--pattern", takesValue := true }, { name := "--midi-port", takesValue := true }]
  operands := .one

def exportUsage : Usage where
  flags := [{ name := "--output", takesValue := true }]
  operands := .one

def starterUsage : Usage where
  operands := .one

def usage : Usage where
  flags := [{ name := "--debug" }]
  operands := .command

/-- The time that playing starts from. -/
def startOf (p : Parsed) : Time :=
  match p.value? "--from" with
  | none => Time.start
  | some text =>
    match Time.parse text with
    | .ok t => t
    | .error _ => Time.start

/-- Reads what follows the word for a command. -/
def readCommand (word : String) (args : List String) : Except Stop Command := do
  match word with
  | "play" =>
    let p ← playUsage.parse args
    let p ← p.settle
    let tickers : Tickers := ⟨p.has "--ticker-bar", p.has "--ticker-beat", p.has "--ticker-interval"⟩
    return .play (p.operand?.getD "") (p.has "--metronome") tickers (startOf p) (p.value? "--pattern")
      (p.value? "--midi-port")
  | "export" =>
    let p ← exportUsage.parse args
    let p ← p.settle
    return .exporting (p.operand?.getD "") (p.value? "--output")
  | "template" =>
    let p ← starterUsage.parse args
    let p ← p.settle
    return .starter (p.operand?.getD "")
  | "chords" =>
    let p ← ({} : Usage).parse args
    let _ ← p.settle
    return .chords
  | _ => .error .misuse

/-- Reads a command line. -/
def parse (args : List String) : Except Stop Invocation := do
  let p ← usage.parse args
  let command ← readCommand (p.operand?.getD "") p.rest
  let p ← p.settle
  return ⟨p.has "--debug", command⟩

end Invocation

/-! ## Carrying it out -/

/-- Why a port does not open. -/
inductive PortFault where
  /-- there is no way to open it -/
  | missing (reason : String)
  | value (reason : String)
  | interrupted
  deriving Repr, DecidableEq

/-- A port that was opened: its name and what was done to it. -/
structure PortRecord where
  name : String
  operations : List PortOperation
  deriving Repr, DecidableEq

/-- How a command ends. -/
inductive Verdict where
  | done
  | failed (e : Error)
  | interrupted
  deriving Repr, DecidableEq

/-- What a command leaves behind: the lines that it prints, the files that it wrote, the ports that it
used, and its end. -/
structure Outcome where
  lines : List String := []
  written : List Path := []
  ports : List PortRecord := []
  verdict : Verdict := .done
  deriving Repr, DecidableEq

/-- The exit code. -/
def Outcome.code (o : Outcome) : Nat :=
  match o.verdict with
  | .done => 0
  | .failed _ => 1
  | .interrupted => 130

namespace Command

/-- What is played is printed and, if there is a port, sounds. It ends with a line that cannot be
printed. -/
def playComposition (c : Composition) (metronome : Bool) (tickers : Tickers) (start : Time)
    (pattern? port? : Option String) : Outcome :=
  let (cues, error?) := c.play (metronome && port?.isSome) start (pattern?.map .name)
  let (cues, fault?) := tickers.follow cues
  let error? := (fault?.map Error.print).or (error?.map Error.play)
  let lines := tickers.lines (Cue.callbacks cues)
  let finished := s!"Finished playing '{c.name.text}'."
  match port? with
  | none =>
    match error? with
    | some e => { lines, verdict := .failed e }
    | none => { lines := lines ++ [finished] }
  | some name =>
    let (operations, sampler?) := Rig.standard.session cues
    let ports := [⟨name, operations⟩]
    match sampler?, error? with
    | some e, _ => { lines, ports, verdict := .failed (.sampler e) }
    | none, some e => { lines, ports, verdict := .failed e }
    | none, none => { lines := lines ++ [finished], ports }

/-- Plays a file, through a port if one is named. -/
def playFile (t : Tree) (picks : Picks) (openPort : String → Option PortFault) (file : String)
    (metronome : Bool) (tickers : Tickers) (start : Time) (pattern? port? : Option String)
    (load : Yaml.Loader := Yaml.read) : Outcome :=
  match Composition.ofFile t (Path.ofString file) picks load with
  | .error e => { verdict := .failed e }
  | .ok c =>
    match port?.bind openPort with
    | some (.missing reason) => { verdict := .failed (.port reason) }
    | some (.value reason) => { verdict := .failed (.portValue reason) }
    | some .interrupted => { verdict := .interrupted }
    | none => playComposition c metronome tickers start pattern? port?

/-- The lines that tell what was exported. -/
def exportLines (paths : List Path) : List String :=
  (paths.map fun p => "Exported: " ++ p.text) ++
    match paths with
    | [] => []
    | first :: _ => [Tool.exportedMessage paths.length first.parent.name first.parent]

/-- Carries out a command. -/
def run (t : Tree) (picks : Picks) (openPort : String → Option PortFault) (command : Command)
    (load : Yaml.Loader := Yaml.read) : Outcome × Tree :=
  match command with
  | play file metronome tickers start pattern? port? =>
    (playFile t picks openPort file metronome tickers start pattern? port? load, t)
  | exporting file output? =>
    match exportFile t (Path.ofString file) (output?.map Path.ofString) picks load with
    | (.error e, t) => ({ verdict := .failed e }, t)
    | (.ok paths, t) => ({ lines := exportLines paths, written := paths }, t)
  | starter path =>
    let path := Path.ofString path
    match Document.exportStarter t path with
    | (.error failure, t) => ({ verdict := .failed (.starter path failure) }, t)
    | (.ok path, t) =>
      ({ lines := [s!"Exported template to {path.text}."], written := [path] }, t)
  | chords => ({ lines := Chord.keywords.map ("> " ++ ·) }, t)

end Command

end Cadence
