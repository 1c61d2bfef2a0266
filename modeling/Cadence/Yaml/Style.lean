import Cadence.Text.Name
import Cadence.Yaml.Lines
import Cadence.Yaml.Scalar

/-!
# How text is written

Text is written plain where it reads back as text, between single quotes where that is enough, and
otherwise between double quotes with escapes. Long text is folded: a line ends at the first place
that allows it after its width is used up.
-/

namespace Cadence.Yaml

/-- The three ways to write a text. -/
inductive Style where
  | plain
  | single
  | double
  deriving Repr, DecidableEq

/-- A character that only an escape can show. -/
def needsEscape (c : Char) : Bool := c != '\n' && !(0x20 ≤ c.toNat && c.toNat ≤ 0x7e)

/-- A space stands next to a line end. -/
def hasRaggedLine : List Char → Bool
  | ' ' :: '\n' :: _ => true
  | '\n' :: ' ' :: _ => true
  | _ :: cs => hasRaggedLine cs
  | [] => false

/-- Characters that cannot begin a plain text. -/
def neverFirst : List Char :=
  ['#', ',', '[', ']', '{', '}', '&', '*', '!', '|', '>', '\'', '\x22', '%', '@', '\x60']

/-- Whether a plain text may begin like this. -/
def beginsSafely (inFlow : Bool) : List Char → Bool
  | [] => false
  | '-' :: '-' :: '-' :: _ => false
  | '.' :: '.' :: '.' :: _ => false
  | c :: cs =>
    !neverFirst.contains c && c != ' ' && c != '\n' && !(c == '-' && atGap cs) &&
      !((c == '?' || c == ':') && (inFlow || atGap cs))

/-- Whether a plain text may go on like this after a character. -/
def goesOnSafely (inFlow : Bool) (before : Char) : List Char → Bool
  | [] => before != ' '
  | c :: cs =>
    c != '\n' && !(c == '#' && before == ' ') && !(c == ':' && (inFlow || atGap cs)) &&
      !(inFlow && [',', '?', '[', ']', '{', '}'].contains c) && goesOnSafely inFlow c cs

/-- Whether a text reads back as itself without quotes. -/
def isPlainText (inFlow : Bool) : List Char → Bool
  | [] => false
  | c :: cs =>
    beginsSafely inFlow (c :: cs) && goesOnSafely inFlow c cs &&
      Meaning.ofPlain (c :: cs) == .text

/-- The way to write a text. -/
def Style.of (inFlow : Bool) (cs : List Char) : Style :=
  if cs.any needsEscape || hasRaggedLine cs then .double
  else if isPlainText inFlow cs then .plain
  else .single

/-! ## Folding -/

/-- The width that a line should not exceed. -/
def lineWidth : Nat := 80

/-- A line end and the indentation of the next line. -/
def newLine (indent : Nat) : List Char := '\n' :: List.replicate indent ' '

/-- Writes on in a plain text after a number of spaces. A single space may become a line end. -/
def writePlain (indent : Nat) : Nat → Nat → List Char → List Char
  | spaces, _, [] => List.replicate spaces ' '
  | spaces, column, c :: cs =>
    if c = ' ' then writePlain indent (spaces + 1) column cs
    else if spaces = 1 ∧ lineWidth < column then
      newLine indent ++ c :: writePlain indent 0 (indent + 1) cs
    else List.replicate spaces ' ' ++ c :: writePlain indent 0 (column + spaces + 1) cs

/-- Blanks that are still to be written, of one kind. -/
inductive Held where
  | nothing
  | spaces (count : Nat) (atStart : Bool)
  | breaks (count : Nat)
  deriving Repr, DecidableEq

/-- Writes blanks that were held back, and says in which column the text goes on. The first of
several line ends is written twice. -/
def Held.write (indent column : Nat) (atEnd : Bool) : Held → List Char × Nat
  | nothing => ([], column)
  | spaces count atStart =>
    if count = 1 ∧ lineWidth < column ∧ !atStart ∧ !atEnd then (newLine indent, indent)
    else (List.replicate count ' ', column + count)
  | breaks count => (List.replicate count '\n' ++ newLine indent, indent)

/-- Writes on in a text between single quotes. -/
def writeSingle (indent : Nat) : Held → Nat → Bool → List Char → List Char
  | held, column, _, [] => (held.write indent column true).1 ++ ['\'']
  | held, column, atStart, c :: cs =>
    if c = ' ' then
      match held with
      | .spaces count first => writeSingle indent (.spaces (count + 1) first) column false cs
      | _ =>
        let (blanks, column) := held.write indent column false
        blanks ++ writeSingle indent (.spaces 1 atStart) column false cs
    else if c = '\n' then
      match held with
      | .breaks count => writeSingle indent (.breaks (count + 1)) column false cs
      | _ =>
        let (blanks, column) := held.write indent column false
        blanks ++ writeSingle indent (.breaks 1) column false cs
    else
      let (blanks, column) := held.write indent column false
      let shown := if c = '\'' then ['\'', '\''] else [c]
      blanks ++ shown ++ writeSingle indent .nothing (column + shown.length) false cs

/-- The escapes of a single letter, by character. -/
def escapeLetters : List (Char × Char) :=
  [('\x00', '0'), ('\x07', 'a'), ('\x08', 'b'), ('\t', 't'), ('\n', 'n'), ('\x0b', 'v'),
   ('\x0c', 'f'), ('\r', 'r'), ('\x1b', 'e'), ('\x22', '\x22'), ('\\', '\\'), ('\u0085', 'N'),
   ('\u00a0', '_'), ('\u2028', 'L'), ('\u2029', 'P')]

/-- The escape of a character. -/
def escapeOf (c : Char) : List Char :=
  let code (width : Nat) := (Text.hex width c.toNat).map Char.toUpper
  match escapeLetters.lookup c with
  | some letter => ['\\', letter]
  | none =>
    if c.toNat ≤ 0xff then '\\' :: 'x' :: code 2
    else if c.toNat ≤ 0xffff then '\\' :: 'u' :: code 4
    else '\\' :: 'U' :: code 8

/-- Between double quotes these have an escape too. -/
def isEscaped (c : Char) : Bool := needsEscape c || c == '\n' || c == '\x22' || c == '\\'

/-- A point as it is written between double quotes, if it needs an escape there. -/
def escape? : Point → Option (List Char)
  | .char c => if isEscaped c then some (escapeOf c) else none
  | .half h => some ('\\' :: 'u' :: (Text.hex 4 (0xd800 + h.val)).map Char.toUpper)

/-- An escaped line end, before a point. A space that begins the new line is escaped. -/
def foldBefore (indent : Nat) (p : Point) : List Char × Nat :=
  if p = .char ' ' then ('\\' :: newLine indent ++ ['\\'], indent + 1)
  else ('\\' :: newLine indent, indent)

/-- Writes on in a text between double quotes. A line may end after an escape and before a space, not
before the first point or the last. -/
def writeDouble (indent : Nat) (atStart afterEscape : Bool) : Nat → List Point → List Char
  | _, [] => ['\x22']
  | column, p :: ps =>
    match escape? p with
    | some shown =>
      let column := column + shown.length
      match ps with
      | [] => shown ++ writeDouble indent false true column ps
      | next :: _ =>
        if !atStart ∧ lineWidth + 1 < column then
          let (break_, column) := foldBefore indent next
          shown ++ break_ ++ writeDouble indent false true column ps
        else shown ++ writeDouble indent false true column ps
    | none =>
      if !atStart ∧ ps ≠ [] ∧ (p = .char ' ' ∨ afterEscape) ∧ lineWidth < column then
        let (break_, column) := foldBefore indent p
        break_ ++ p.shown ++ writeDouble indent false false (column + 1) ps
      else p.shown ++ writeDouble indent false false (column + 1) ps

/-- A text as it is written from a column on. Lines after the first are indented. -/
def writeText (inFlow : Bool) (indent column : Nat) (cs : List Char) : List Char :=
  match Style.of inFlow cs with
  | .plain => writePlain indent 0 column cs
  | .single => '\'' :: writeSingle indent .nothing (column + 1) true cs
  | .double => '\x22' :: writeDouble indent true true (column + 1) (cs.map .char)

end Cadence.Yaml
