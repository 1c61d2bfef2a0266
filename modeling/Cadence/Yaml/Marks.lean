import Cadence.Text.Numeral
import Cadence.Yaml.Lines
import Cadence.Yaml.Token

/-!
# Names, tags and directives

The tokens that begin with a mark: anchors and aliases, tags, and the directives before a document.
-/

namespace Cadence.Yaml

/-- A character of an anchor, of a tag handle or of the name of a directive. -/
def isWordChar (c : Char) : Bool := c.isAlphanum || c == '-' || c == '_'

/-- Reads the name of an anchor or alias. What follows it must not run on. -/
def readName (cs : List Char) : Except Problem (List Char × List Char) :=
  let name := cs.takeWhile isWordChar
  let rest := cs.dropWhile isWordChar
  if name.isEmpty then .error .anchor
  else if atGap rest || rest.head?.any ['?', ':', ',', ']', '}', '%', '@', '\x60'].contains then
    .ok (name, rest)
  else .error .anchor

/-! ## Tags -/

/-- A character of the address in a tag, apart from escapes. -/
def isUriChar (c : Char) : Bool :=
  c.isAlphanum || "-;/?:@&=+$,_.!~*'()[]%".toList.contains c

/-- Reads an address. A percent sign must begin an escape of two digits. -/
def readUri (cs : List Char) : Except Problem (List Char × List Char) :=
  let uri := cs.takeWhile isUriChar
  let isHex (c : Char) := c.isDigit || ('a' ≤ c && c ≤ 'f') || ('A' ≤ c && c ≤ 'F')
  let rec escaped : List Char → Bool
    | [] => true
    | '%' :: a :: b :: rest => isHex a && isHex b && escaped rest
    | c :: rest => c != '%' && escaped rest
  if uri.isEmpty || !escaped uri then .error .tag else .ok (uri, cs.dropWhile isUriChar)

/-- Reads the handle of a tag: one mark, or a word between two. -/
def readHandle : List Char → Except Problem (List Char × List Char)
  | '!' :: cs =>
    if cs.head? = some ' ' then .ok (['!'], cs)
    else match cs.dropWhile isWordChar with
      | '!' :: rest => .ok ('!' :: cs.takeWhile isWordChar ++ ['!'], rest)
      | _ => .error .tag
  | _ => .error .tag

/-- Whether a second mark comes before the next gap. -/
def hasHandle : List Char → Bool
  | [] => false
  | c :: cs => c == '!' || (!(c == ' ' || isBreak c) && hasHandle cs)

/-- Reads a tag after its first mark. -/
def readTag (cs : List Char) : Except Problem (Token × List Char) := do
  let (token, rest) ← match cs with
    | '<' :: cs =>
      let (uri, rest) ← readUri cs
      match rest with
      | '>' :: rest => pure (Token.tag none uri, rest)
      | _ => .error .tag
    | _ =>
      if atGap cs then pure (Token.tag none ['!'], cs)
      else do
        let (handle, rest) ← if hasHandle cs then readHandle ('!' :: cs) else pure (['!'], cs)
        let (uri, rest) ← readUri rest
        pure (Token.tag (some handle) uri, rest)
  if rest.head?.any fun c => c != ' ' && !isBreak c then .error .tag
  return (token, rest)

/-! ## Directives -/

/-- Reads a run of digits, of which there may be as many as in any number. -/
def readDigits (cs : List Char) : Except Problem (Nat × List Char) :=
  let ds := cs.takeWhile (·.isDigit)
  if ds.isEmpty then .error .directive
  else if Text.digitLimit < ds.length then .error (.impossible ds)
  else .ok (ds.foldl (fun n d => 10 * n + (d.toNat - 48)) 0, cs.dropWhile (·.isDigit))

/-- A space, a line end or the end comes next. -/
def afterDirective (cs : List Char) : Except Problem Unit :=
  if cs.head?.any fun c => c != ' ' && !isBreak c then .error .directive else .ok ()

/-- Reads the numbers of a version. -/
def readVersion (cs : List Char) : Except Problem (Directive × List Char) := do
  let (major, rest) ← readDigits (cs.dropWhile (· == ' '))
  match rest with
  | '.' :: rest =>
    let (_, rest) ← readDigits rest
    afterDirective rest
    return (.version major, rest)
  | _ => .error .directive

/-- Reads a handle and the address that it stands for. -/
def readTagHandle (cs : List Char) : Except Problem (Directive × List Char) := do
  let (handle, rest) ← readHandle (cs.dropWhile (· == ' '))
  if rest.head? ≠ some ' ' then .error .directive
  let (uri, rest) ← readUri (rest.dropWhile (· == ' '))
  afterDirective rest
  return (.tagHandle handle uri, rest)

/-- Reads to the end of the line, on which only a comment may stand. -/
def endDirective (cs : List Char) : Except Problem (List Char) :=
  let rest := cs.dropWhile (· == ' ')
  if rest.head? = some '#' then .ok (rest.dropWhile (!isBreak ·))
  else if rest.head?.any (!isBreak ·) then .error .directive
  else .ok rest

/-- Reads a directive after its percent sign, up to its line end. -/
def readDirective (cs : List Char) : Except Problem (Directive × List Char) := do
  let name := cs.takeWhile isWordChar
  let rest := cs.dropWhile isWordChar
  if name.isEmpty then .error .directive
  afterDirective rest
  let (directive, rest) ←
    if name = ['Y', 'A', 'M', 'L'] then readVersion rest
    else if name = ['T', 'A', 'G'] then readTagHandle rest
    else pure (.unknown, rest.dropWhile (!isBreak ·))
  return (directive, ← endDirective rest)

end Cadence.Yaml
