import Cadence.Yaml.Block
import Cadence.Yaml.Marks
import Cadence.Yaml.Plain
import Cadence.Yaml.Quoted

/-!
# From text to tokens

Outside of brackets indentation begins and ends lists and mappings. Whether a token is a key shows
only at the colon after it, so the last token that may be one is remembered; when its colon comes, the
key mark goes in front of it, and with it the beginning of a mapping that is not open yet. A key must
be on one line with its colon and not too far from it.
-/

namespace Cadence.Yaml

/-- A token that may turn out to be a key. -/
structure Candidate where
  /-- how many tokens come before it -/
  position : Nat
  /-- nothing but a key can stand here -/
  required : Bool
  index : Nat
  line : Nat
  column : Nat
  deriving Repr, DecidableEq

/-- The longest way from a key to its colon. -/
def keyReach : Nat := 1024

/-- A text that is partly cut into tokens. -/
structure Lexer where
  cursor : Cursor
  /-- the columns of the block collections that are open, the innermost first -/
  indents : List Nat := []
  /-- the possible key of the innermost brackets -/
  candidate? : Option Candidate := none
  /-- the possible keys around them, one for each open bracket -/
  outer : List (Option Candidate) := []
  /-- whether a key can begin here -/
  keyAllowed : Bool := true
  /-- the tokens so far, the last one first -/
  reversed : List Token := []
  deriving Repr

namespace Lexer

/-- Inside brackets. -/
def inFlow (l : Lexer) : Bool := !l.outer.isEmpty

/-- The column that a deeper block collection must exceed. -/
def indent (l : Lexer) : Int :=
  match l.indents with
  | [] => -1
  | column :: _ => column

/-- The column that the lines of a scalar must reach. -/
def scalarIndent (l : Lexer) : Nat := (l.indent + 1).toNat

def emit (l : Lexer) (token : Token) : Lexer := { l with reversed := token :: l.reversed }

/-- On to a later part of the text. -/
def moveTo (l : Lexer) (rest : List Char) : Lexer := { l with cursor := l.cursor.moveTo rest }

/-! ## Gaps and indentation -/

/-- Skips blanks, comments and line ends, and says whether there was a line end. -/
def skipGap (inComment newLine : Bool) : List Char → Bool × List Char
  | [] => (newLine, [])
  | c :: cs =>
    if isBreak c then skipGap false true cs
    else if inComment || c = '#' then skipGap true newLine cs
    else if c = ' ' then skipGap false newLine cs
    else (newLine, c :: cs)

/-- On to the next token. A key can begin on a new line. -/
def skip (l : Lexer) : Lexer :=
  let l := if l.cursor.index = 0 ∧ l.cursor.rest.head? = some byteOrderMark then
    { l with cursor := l.cursor.next } else l
  let (newLine, rest) := skipGap false false l.cursor.rest
  { l.moveTo rest with keyAllowed := l.keyAllowed || (newLine && !l.inFlow) }

/-- Ends the block collections that are indented deeper than a column. -/
def closeBlocks (column : Int) : List Nat → List Token → List Nat × List Token
  | [], reversed => ([], reversed)
  | i :: is, reversed =>
    if column < i then closeBlocks column is (.blockEnd :: reversed) else (i :: is, reversed)

/-- Ends block collections, unless brackets are open. -/
def closeTo (l : Lexer) (column : Int) : Lexer :=
  if l.inFlow then l
  else
    let (indents, reversed) := closeBlocks column l.indents l.reversed
    { l with indents, reversed }

/-- Begins a block collection at a column, if that is deeper than the innermost one. -/
def openBlock (l : Lexer) (token : Token) : Lexer :=
  if l.indent < l.cursor.column then
    { l.emit token with indents := l.cursor.column :: l.indents }
  else l

/-! ## Possible keys -/

/-- A possible key that can still get its colon. -/
def live? (l : Lexer) : Option Candidate → Except Problem (Option Candidate)
  | none => .ok none
  | some c =>
    if c.line = l.cursor.line ∧ l.cursor.index - c.index ≤ keyReach then .ok (some c)
    else if c.required then .error .key
    else .ok none

/-- Forgets the possible keys that are out of reach. -/
def forgetStale (l : Lexer) : Except Problem Lexer := do
  return { l with candidate? := ← l.live? l.candidate?, outer := ← l.outer.mapM l.live? }

/-- Forgets the possible key. One that had to be a key is an error. -/
def forget (l : Lexer) : Except Problem Lexer :=
  if l.candidate?.any (·.required) then .error .key else .ok { l with candidate? := none }

/-- Remembers that the next token may be a key. -/
def remember (l : Lexer) : Except Problem Lexer :=
  if l.keyAllowed then do
    let l ← l.forget
    return { l with candidate? := some {
      position := l.reversed.length
      required := !l.inFlow && l.indent == l.cursor.column
      index := l.cursor.index
      line := l.cursor.line
      column := l.cursor.column } }
  else .ok l

/-- Puts tokens, the last one first, in front of all but the first `position` of a list that has its
last token first. -/
def insertAt (position : Nat) (tokens reversed : List Token) : List Token :=
  let later := reversed.length - position
  reversed.take later ++ tokens ++ reversed.drop later

/-! ## Tokens -/

/-- A token of a number of characters. -/
def mark (l : Lexer) (token : Token) (length : Nat) : Lexer :=
  { l.emit token with cursor := l.cursor.forward length }

/-- A document begins or ends. -/
def separator (l : Lexer) (token : Token) : Except Problem Lexer := do
  let l ← (l.closeTo (-1)).forget
  return { l.mark token 3 with keyAllowed := false }

def directive (l : Lexer) (cs : List Char) : Except Problem Lexer := do
  let l ← (l.closeTo (-1)).forget
  let (d, rest) ← readDirective cs
  return { (l.emit (.directive d)).moveTo rest with keyAllowed := false }

/-- Brackets open. -/
def openFlow (l : Lexer) (token : Token) : Except Problem Lexer := do
  let l ← l.remember
  return { l.mark token 1 with
    outer := l.candidate? :: l.outer, candidate? := none, keyAllowed := true }

/-- Brackets close. -/
def closeFlow (l : Lexer) (token : Token) : Except Problem Lexer := do
  let l ← l.forget
  match l.outer with
  | [] => .error .unexpected
  | candidate? :: outer => return { l.mark token 1 with outer, candidate?, keyAllowed := false }

def comma (l : Lexer) : Except Problem Lexer := do
  let l ← l.forget
  return { l.mark .comma 1 with keyAllowed := true }

/-- The dash of an entry, which may begin its list. -/
def entry (l : Lexer) : Except Problem Lexer := do
  if !l.inFlow && !l.keyAllowed then .error .entry
  let l ← (if l.inFlow then l else l.openBlock .blockList).forget
  return { l.mark .entry 1 with keyAllowed := true }

/-- A question mark, which may begin a mapping. -/
def explicitKey (l : Lexer) : Except Problem Lexer := do
  if !l.inFlow && !l.keyAllowed then .error .key
  let l ← (if l.inFlow then l else l.openBlock .blockMap).forget
  return { l.mark .key 1 with keyAllowed := !l.inFlow }

/-- A colon. A possible key is one now; without one the key is empty or was marked. -/
def colon (l : Lexer) : Except Problem Lexer := do
  match l.candidate? with
  | some c =>
    let opens := !l.inFlow && l.indent < c.column
    let marks := if opens then [.key, .blockMap] else [.key]
    let l := { l with
      candidate? := none
      keyAllowed := false
      indents := if opens then c.column :: l.indents else l.indents
      reversed := insertAt c.position marks l.reversed }
    return l.mark .value 1
  | none =>
    if !l.inFlow && !l.keyAllowed then .error .key
    let l := if l.inFlow then l else l.openBlock .blockMap
    return { l.mark .value 1 with keyAllowed := !l.inFlow }

/-- An anchor or alias. -/
def name (l : Lexer) (token : List Char → Token) (cs : List Char) : Except Problem Lexer := do
  let l ← l.remember
  let (name, rest) ← readName cs
  return { (l.emit (token name)).moveTo rest with keyAllowed := false }

def tag (l : Lexer) (cs : List Char) : Except Problem Lexer := do
  let l ← l.remember
  let (token, rest) ← readTag cs
  return { (l.emit token).moveTo rest with keyAllowed := false }

def quoted (l : Lexer) (quotes : Quotes) (cs : List Char) : Except Problem Lexer := do
  let l ← l.remember
  let (content, rest) ← readQuoted quotes .text {} cs
  return { (l.emit (.scalar false content)).moveTo rest with keyAllowed := false }

def block (l : Lexer) (folded : Bool) (cs : List Char) : Except Problem Lexer := do
  let l ← l.forget
  let (chars, rest) ← readBlock folded (max 1 l.scalarIndent) cs
  return { (l.emit (.scalar false { chars })).moveTo rest with keyAllowed := true }

def plain (l : Lexer) : Except Problem Lexer := do
  let l ← l.remember
  let run := readPlain l.inFlow l.scalarIndent .word [] false l.cursor.rest
  return { (l.emit (.scalar true { chars := run.chars })).moveTo run.rest with
    keyAllowed := run.newLine }

/-- The token that begins with a character. -/
def token (l : Lexer) (c : Char) (cs : List Char) : Except Problem Lexer :=
  let isGap := atGap cs
  if l.cursor.column = 0 ∧ c = '%' then l.directive cs
  else if l.cursor.column = 0 ∧ atSeparator (c :: cs) then
    l.separator (if c = '-' then .documentStart else .documentEnd)
  else if c = '[' then l.openFlow .listOpen
  else if c = '{' then l.openFlow .mapOpen
  else if c = ']' then l.closeFlow .listClose
  else if c = '}' then l.closeFlow .mapClose
  else if c = ',' then l.comma
  else if c = '-' ∧ isGap then l.entry
  else if c = '?' ∧ (l.inFlow || isGap) then l.explicitKey
  else if c = ':' ∧ (l.inFlow || isGap) then l.colon
  else if c = '*' then l.name .alias cs
  else if c = '&' then l.name .anchor cs
  else if c = '!' then l.tag cs
  else if c = '|' ∧ !l.inFlow then l.block false cs
  else if c = '>' ∧ !l.inFlow then l.block true cs
  else if c = '\'' then l.quoted .single cs
  else if c = '\x22' then l.quoted .double cs
  else if beginsPlain l.inFlow (c :: cs) then l.plain
  else .error (.start c)

/-- One token further. At the end of the text, what is open ends, and the answer is `false`. -/
def step (l : Lexer) : Except Problem (Bool × Lexer) := do
  let l ← l.skip.forgetStale
  let l := l.closeTo l.cursor.column
  match l.cursor.rest with
  | [] => return (false, ← (l.closeTo (-1)).forget)
  | c :: cs => return (true, ← l.token c cs)

/-- How many tokens are let go of: those before the first that may still turn out to be a key. -/
def settled (l : Lexer) : Nat :=
  let pending := (l.candidate? :: l.outer).filterMap fun c? =>
    match l.live? c? with
    | .ok c? => c?.map (·.position)
    | .error _ => none
  pending.foldl min l.reversed.length

/-- The tokens of a text, of which a number of steps are taken. Where the text breaks off, only the
tokens that were let go of are there. -/
def run : Nat → Lexer → List Token
  | 0, l => (.broken .unexpected :: l.reversed).reverse
  | fuel + 1, l =>
    match l.step with
    | .error p => l.reversed.reverse.take l.settled ++ [.broken p]
    | .ok (false, l) => l.reversed.reverse
    | .ok (true, l) => run fuel l

end Lexer

/-- The tokens of a text. A text that breaks off ends in a token that says why. Every step takes at
least one character, so there are no more steps than characters. -/
def tokens (cs : List Char) : List Token :=
  let cs := uniformBreaks cs
  Lexer.run (cs.length + 1) { cursor := { rest := cs } }

end Cadence.Yaml
