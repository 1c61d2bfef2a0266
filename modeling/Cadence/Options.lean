import Cadence.Text.Digit

/-!
# Command line arguments

A command line is options, which begin with a dash, and operands. A long option may be shortened as
long as it stays clear which one is meant, and its value may follow an equals sign. After two dashes
everything is an operand. An argument that nothing asks for is found out only at the end, so help that
was asked for before is still given.
-/

namespace Cadence.Options

/-- Why a command line is not carried out. -/
inductive Stop where
  /-- help was asked for -/
  | help
  | misuse
  deriving Repr, DecidableEq

/-- The exit code of a command line that is not carried out. -/
def Stop.code : Stop → Nat
  | help => 0
  | misuse => 2

/-- An option with a long name. -/
structure Flag where
  name : String
  takesValue : Bool := false
  /-- whether a value fits -/
  accepts : String → Bool := fun _ => true

/-- The operands that are asked for. -/
inductive Operands where
  | nothing
  | one
  /-- a word, and all that follows it -/
  | command
  deriving Repr, DecidableEq

/-- What may stand on a command line. Help can always be asked for. -/
structure Usage where
  flags : List Flag := []
  operands : Operands := .nothing

/-- The names of all options. -/
def Usage.names (u : Usage) : List String := "-h" :: "--help" :: u.flags.map (·.name)

/-- An option that asks for help. -/
def isHelp (name : String) : Bool := name == "-h" || name == "--help"

/-! ## Telling options from operands -/

/-- What an argument is. -/
inductive Mark where
  | operand
  | separator
  | flag (name : String) (value? : Option String)
  | unknown
  deriving Repr, DecidableEq

/-- An argument cut at its first equals sign, if it has one. -/
def cutValue (arg : String) : String × Option String :=
  let cs := arg.toList
  let before := cs.takeWhile (· != '=')
  if before.length = cs.length then (arg, none)
  else (String.ofList before, some (String.ofList (cs.drop (before.length + 1))))

/-- A dash and a number. -/
def isNegativeNumber (arg : String) : Bool :=
  let isDigit (c : Char) := (Text.digitValue? c).isSome
  match arg.toList with
  | '-' :: cs =>
    match cs.dropWhile isDigit with
    | [] => !cs.isEmpty
    | '.' :: ds => !ds.isEmpty && ds.all isDigit
    | _ => false
  | _ => false

/-- The options that an argument may mean when it is none of their names. -/
def Usage.candidates (u : Usage) (arg : String) : List Mark :=
  match arg.toList with
  | '-' :: '-' :: _ =>
    let (name, value?) := cutValue arg
    (u.names.filter fun n => name.toList.isPrefixOf n.toList).map (.flag · value?)
  | '-' :: 'h' :: cs => [.flag "-h" (some (String.ofList cs))]
  | _ => []

/-- What an argument in front of all separators is. -/
def Usage.classify (u : Usage) (arg : String) : Except Stop Mark :=
  let (name, value?) := cutValue arg
  match arg.toList with
  | '-' :: _ :: _ =>
    if u.names.contains arg then .ok (.flag arg none)
    else if value?.isSome && name != "-h" && u.names.contains name then .ok (.flag name value?)
    else match u.candidates arg with
      | [mark] => .ok mark
      | _ :: _ => .error .misuse
      | [] => .ok (if isNegativeNumber arg || arg.toList.contains ' ' then .operand else .unknown)
  | _ => .ok .operand

/-- What each argument is. -/
def Usage.classifyAll (u : Usage) : List String → Except Stop (List (String × Mark))
  | [] => .ok []
  | "--" :: args => .ok (("--", .separator) :: args.map fun arg => (arg, .operand))
  | arg :: args => do
    let mark ← u.classify arg
    return (arg, mark) :: (← u.classifyAll args)

/-! ## Carrying out -/

/-- What a command line says. -/
structure Parsed where
  /-- options and their values, the last one first -/
  given : List (String × String) := []
  operand? : Option String := none
  /-- what follows a command -/
  rest : List String := []
  /-- whether there was an argument that nothing asks for -/
  strangers : Bool := false
  deriving Repr, DecidableEq

namespace Parsed

def has (p : Parsed) (name : String) : Bool := (p.given.lookup name).isSome

/-- The value given last. -/
def value? (p : Parsed) (name : String) : Option String := p.given.lookup name

end Parsed

/-- What asking for help with more right behind it comes to. Behind the short option there may be more
short options, of which only that for help is known. -/
def helpWith : List Char → Stop
  | [] => .help
  | '=' :: _ | '-' :: _ => .misuse
  | 'h' :: cs => helpWith cs
  | _ => .help

/-- What an option that asks for help comes to. -/
def helpStop (name : String) : Option String → Stop
  | none => .help
  | some more => if name = "-h" then helpWith more.toList else .misuse

/-- How far a command line is read. -/
structure Progress where
  parsed : Parsed := {}
  /-- the option whose value comes next -/
  awaiting? : Option Flag := none
  /-- the operand was the argument before -/
  justTaken : Bool := false

namespace Progress

/-- Notes an option with its value. -/
def give (p : Progress) (name value : String) : Progress :=
  { parsed := { p.parsed with given := (name, value) :: p.parsed.given } }

/-- Notes an argument that nothing asks for. -/
def stranger (p : Progress) : Progress := { parsed := { p.parsed with strangers := true } }

/-- Gives an option a value, if it fits. -/
def take (p : Progress) (flag : Flag) (value : String) : Except Stop Progress :=
  if flag.accepts value then .ok (p.give flag.name value) else .error .misuse

/-- Reads an option. -/
def flag (p : Progress) (u : Usage) (name : String) (value? : Option String) :
    Except Stop Progress :=
  if isHelp name then .error (helpStop name value?)
  else match u.flags.find? (·.name == name), value? with
    | none, _ => .error .misuse
    | some f, some value => if f.takesValue then p.take f value else .error .misuse
    | some f, none => .ok (if f.takesValue then { p with awaiting? := some f } else p.give name "")

/-- Reads an operand. The one that is asked for may have a separator on either side. -/
def operand (p : Progress) (u : Usage) (arg : String) : Progress :=
  if u.operands ≠ .nothing ∧ p.parsed.operand?.isNone then
    { parsed := { p.parsed with operand? := some arg }, justTaken := true }
  else p.stranger

/-- Reads a separator. No command can follow one. -/
def separator (p : Progress) (u : Usage) : Except Stop Progress :=
  match u.operands, p.parsed.operand? with
  | .command, _ => .error .misuse
  | .one, none => .ok { p with justTaken := false }
  | .one, some _ => .ok (if p.justTaken then { p with justTaken := false } else p.stranger)
  | .nothing, _ => .ok p.stranger

/-- Reads one argument. What follows a command is left as it is. -/
def step (u : Usage) (p : Progress) (arg : String × Mark) : Except Stop Progress :=
  if u.operands = .command ∧ p.parsed.operand?.isSome then
    .ok { p with parsed := { p.parsed with rest := p.parsed.rest ++ [arg.1] } }
  else match p.awaiting?, arg.2 with
    | some f, .operand => p.take f arg.1
    | some _, _ => .error .misuse
    | none, .flag name value? => p.flag u name value?
    | none, .unknown => .ok p.stranger
    | none, .operand => .ok (p.operand u arg.1)
    | none, .separator => p.separator u

/-- The end of a command line: nothing that is asked for may be missing. -/
def finish (p : Progress) (u : Usage) : Except Stop Parsed :=
  if p.awaiting?.isSome || (u.operands != .nothing && p.parsed.operand?.isNone) then .error .misuse
  else .ok p.parsed

end Progress

/-- Reads a command line. -/
def Usage.parse (u : Usage) (args : List String) : Except Stop Parsed := do
  let progress ← (← u.classifyAll args).foldlM (Progress.step u) {}
  progress.finish u

/-- No argument may be left over. -/
def Parsed.settle (p : Parsed) : Except Stop Parsed :=
  if p.strangers then .error .misuse else .ok p

end Cadence.Options
