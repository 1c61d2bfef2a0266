import Cadence.Yaml.Lines
import Cadence.Yaml.Token

/-!
# Quoted scalars

A quoted scalar is read character by character. Blanks before a line end and after it are dropped and
the line ends are folded. Two single quotes stand for one; between double quotes a backslash begins
an escape, also that of a line end.
-/

namespace Cadence.Yaml

/-- The two kinds of quotes. -/
inductive Quotes where
  | single
  | double
  deriving Repr, DecidableEq

/-- Where the reader of a quoted scalar stands. -/
inductive QuotedState where
  | text
  /-- after blanks, the last one first, which a line end would drop -/
  | blanks (reversed : List Char)
  /-- at the beginning of a line, after a line end, unless that was escaped, and after others -/
  | lines (first? : Option Char) (others : List Char)
  /-- after a single quote that may be the first of two -/
  | quote
  /-- after a backslash -/
  | escape
  /-- inside an escape by code, with so many digits still to come -/
  | code (left n : Nat)
  deriving Repr, DecidableEq

/-- What blanks and line ends amount to when more text follows. -/
def QuotedState.pending : QuotedState → List Char
  | blanks reversed => reversed.reverse
  | lines (some first) others => fold first others
  | lines none others => others
  | _ => []

/-- The escapes of a single letter. -/
def escapes : List (Char × Char) :=
  [('0', '\x00'), ('a', '\x07'), ('b', '\x08'), ('t', '\t'), ('\t', '\t'), ('n', '\n'), ('v', '\x0b'),
   ('f', '\x0c'), ('r', '\r'), ('e', '\x1b'), (' ', ' '), ('\x22', '\x22'), ('\\', '\\'), ('/', '/'),
   ('N', '\u0085'), ('_', '\u00a0'), ('L', '\u2028'), ('P', '\u2029')]

/-- How many digits follow the letter of an escape by code. -/
def codeLength? : Char → Option Nat
  | 'x' => some 2
  | 'u' => some 4
  | 'U' => some 8
  | _ => none

/-- The value of a hexadecimal digit. -/
def hexValue? (c : Char) : Option Nat :=
  if '0' ≤ c ∧ c ≤ '9' then some (c.toNat - 48)
  else if 'a' ≤ c ∧ c ≤ 'f' then some (c.toNat - 87)
  else if 'A' ≤ c ∧ c ≤ 'F' then some (c.toNat - 55)
  else none

namespace Content

/-- Adds characters. While a scalar is read its content is kept with the last character first. -/
def push (content : Content) (cs : List Char) : Content :=
  match content.more? with
  | none => { content with chars := cs.reverse ++ content.chars }
  | some (first, after) =>
    { content with more? := some (first, (cs.map Point.char).reverse ++ after) }

/-- Adds half of a character. -/
def pushHalf (content : Content) (h : Half) : Content :=
  match content.more? with
  | none => { content with more? := some (h, []) }
  | some (first, after) => { content with more? := some (first, .half h :: after) }

/-- Adds the character with a code. A code may stand for half of a character. -/
def pushCode (content : Content) (code : Nat) : Except Problem Content :=
  if h : code.isValidChar then .ok (content.push [Char.ofNatAux code h])
  else match Half.ofCode? code with
    | some h => .ok (content.pushHalf h)
    | none => .error (.escapeRange code)

/-- The content in its order. -/
def done (content : Content) : Content :=
  ⟨content.chars.reverse, content.more?.map fun (first, after) => (first, after.reverse)⟩

end Content

/-- Reads a quoted scalar to its end, which the rest follows. -/
def readQuoted (quotes : Quotes) :
    QuotedState → Content → List Char → Except Problem (Content × List Char)
  | .quote, sofar, [] => .ok (sofar.done, [])
  | _, _, [] => .error .quote
  | .quote, sofar, c :: cs =>
    if c = '\'' then readQuoted quotes .text (sofar.push [c]) cs else .ok (sofar.done, c :: cs)
  | .escape, sofar, c :: cs =>
    match escapes.lookup c, codeLength? c with
    | some e, _ => readQuoted quotes .text (sofar.push [e]) cs
    | none, some n => readQuoted quotes (.code n 0) sofar cs
    | none, none =>
      if isBreak c then
        if atSeparator cs then .error .quote else readQuoted quotes (.lines none []) sofar cs
      else .error .escape
  | .code left n, sofar, c :: cs =>
    match hexValue? c with
    | none => .error .escape
    | some d =>
      if left ≤ 1 then
        match sofar.pushCode (16 * n + d) with
        | .error p => .error p
        | .ok sofar => readQuoted quotes .text sofar cs
      else readQuoted quotes (.code (left - 1) (16 * n + d)) sofar cs
  | state, sofar, c :: cs =>
    if isBreak c then
      if atSeparator cs then .error .quote
      else match state with
        | .lines first? others => readQuoted quotes (.lines first? (others ++ [c])) sofar cs
        | _ => readQuoted quotes (.lines (some c) []) sofar cs
    else if isBlank c then
      match state with
      | .lines first? others => readQuoted quotes (.lines first? others) sofar cs
      | .blanks reversed => readQuoted quotes (.blanks (c :: reversed)) sofar cs
      | _ => readQuoted quotes (.blanks [c]) sofar cs
    else
      let sofar := sofar.push state.pending
      match quotes with
      | .single =>
        if c = '\'' then readQuoted quotes .quote sofar cs
        else readQuoted quotes .text (sofar.push [c]) cs
      | .double =>
        if c = '\x22' then .ok (sofar.done, cs)
        else if c = '\\' then readQuoted quotes .escape sofar cs
        else readQuoted quotes .text (sofar.push [c]) cs

end Cadence.Yaml
