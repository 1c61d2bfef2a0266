import Cadence.Yaml.Lines

/-!
# Plain scalars

A plain scalar has no quotes. It runs over blanks and, folded, over line ends, as long as the next
line is indented far enough; a colon before a gap ends it, and inside brackets so do brackets, commas
and question marks.
-/

namespace Cadence.Yaml

/-- Characters that begin no plain scalar, a few cases apart. -/
def indicators : List Char :=
  ['-', '?', ':', ',', '[', ']', '{', '}', '#', '&', '*', '!', '|', '>', '\'', '\x22', '%', '@', '\x60']

/-- Whether a plain scalar begins here. -/
def beginsPlain (inFlow : Bool) : List Char → Bool
  | [] => false
  | c :: cs =>
    (!indicators.contains c && !isBlank c && !isBreak c) ||
      (!atGap cs && (c == '-' || (!inFlow && (c == '?' || c == ':'))))

/-- Whether a character ends a plain scalar, given what follows it. -/
def endsPlain (inFlow : Bool) (c : Char) (cs : List Char) : Bool :=
  isBlank c || isBreak c ||
    (c == ':' && (atGap cs || (inFlow && cs.head?.any [',', '[', ']', '{', '}'].contains))) ||
    (inFlow && [',', '?', '[', ']', '{', '}'].contains c)

/-- Where the reader of a plain scalar stands. -/
inductive PlainState where
  | word
  /-- after spaces -/
  | spaces (count : Nat)
  /-- after a line end and others, in a column of the line that it began -/
  | lines (first : Char) (others : List Char) (column : Nat)
  deriving Repr, DecidableEq

/-- A plain scalar that was read. -/
structure PlainRun where
  chars : List Char
  /-- it ran into a new line -/
  newLine : Bool
  rest : List Char
  deriving Repr, DecidableEq

/-- Reads on in a plain scalar whose last character so far comes first. Later lines must be indented
to a column, outside of brackets. -/
def readPlain (inFlow : Bool) (indent : Nat) :
    PlainState → List Char → Bool → List Char → PlainRun
  | _, sofar, newLine, [] => ⟨sofar.reverse, newLine, []⟩
  | .word, sofar, newLine, c :: cs =>
    if isBreak c then
      if atSeparator cs then ⟨sofar.reverse, true, cs⟩
      else readPlain inFlow indent (.lines c [] 0) sofar true cs
    else if c = ' ' then readPlain inFlow indent (.spaces 1) sofar newLine cs
    else if endsPlain inFlow c cs then ⟨sofar.reverse, newLine, c :: cs⟩
    else readPlain inFlow indent .word (c :: sofar) newLine cs
  | .spaces count, sofar, newLine, c :: cs =>
    if isBreak c then
      if atSeparator cs then ⟨sofar.reverse, true, cs⟩
      else readPlain inFlow indent (.lines c [] 0) sofar true cs
    else if c = ' ' then readPlain inFlow indent (.spaces (count + 1)) sofar newLine cs
    else if c = '#' || endsPlain inFlow c cs then ⟨sofar.reverse, newLine, c :: cs⟩
    else readPlain inFlow indent .word (c :: (List.replicate count ' ' ++ sofar)) newLine cs
  | .lines first others column, sofar, newLine, c :: cs =>
    if isBreak c then
      if atSeparator cs then ⟨sofar.reverse, newLine, cs⟩
      else readPlain inFlow indent (.lines first (others ++ [c]) 0) sofar newLine cs
    else if c = ' ' then readPlain inFlow indent (.lines first others (column + 1)) sofar newLine cs
    else if c = '#' || (!inFlow && column < indent) || endsPlain inFlow c cs then
      ⟨sofar.reverse, newLine, c :: cs⟩
    else readPlain inFlow indent .word (c :: ((fold first others).reverse ++ sofar)) newLine cs

end Cadence.Yaml
