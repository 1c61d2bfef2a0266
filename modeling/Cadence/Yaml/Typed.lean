import Cadence.Yaml.Scalar

/-!
# Scalars of a type that is asked for

A tag can ask for a type. The scalar is then read with more freedom than one without a tag: blanks
around a number, digits of any script, a point that is missing. What cannot be read so is impossible.
-/

namespace Cadence.Yaml.Meaning

/-! ## Truth values and whole numbers -/

/-- A word for yes or no, in letters of either case. -/
def asBool (cs : List Char) : Meaning :=
  let word := String.ofList (cs.map Char.toLower)
  if trueWords.contains word then bool true
  else if falseWords.contains word then bool false
  else impossible

/-- Decimal digits of any script as those of ours. -/
def plainDigits (cs : List Char) : List Char :=
  cs.map fun c => ((Text.digitValue? c).map Nat.digitChar).getD c

/-- The value of a digit in a base: a decimal digit or a letter. -/
def digitIn? (base : Nat) (c : Char) : Option Nat :=
  let value? :=
    if c.isDigit then some (c.toNat - 48)
    else if c.isAlpha then some (c.toLower.toNat - 87)
    else none
  value?.filter (· < base)

/-- The letter that says in which base a number is, after a zero. -/
def baseMark : Nat → Char
  | 2 => 'b'
  | 8 => 'o'
  | _ => 'x'

/-- Reads a number in base two, eight or sixteen, of which any number of digits can be read. -/
def readIn? (base : Nat) (cs : List Char) : Option Int :=
  let (negative, body) := unsign (plainDigits (Text.trim Text.isSpace cs))
  let ds := match body with
    | '0' :: c :: ds => if c.toLower = baseMark base then ds else body
    | _ => body
  if ds = [] then none
  else (ds.mapM (digitIn? base)).map fun values =>
    signed negative (values.foldl (fun n d => base * n + d) 0)

/-- The value of a whole number after its sign. -/
def magnitude? : List Char → Option Int
  | [] => none
  | ['0'] => some 0
  | '0' :: 'b' :: ds => readIn? 2 ds
  | '0' :: 'x' :: ds => readIn? 16 ds
  | '0' :: ds => readIn? 8 ('0' :: ds)
  | cs => ((Text.splitAt ':' cs).mapM Text.readInt).map fun parts =>
    parts.foldl (fun n part => 60 * n + part) 0

def asInt (cs : List Char) : Meaning :=
  let (negative, body) := unsign (cs.filter (· != '_'))
  match magnitude? body with
  | some n => int (if negative then -n else n)
  | none => impossible

/-! ## Doubles -/

/-- Reads a double: a point and an exponent are free to be there, and the exponent may have no
sign. -/
def readFloat? (cs : List Char) : Option Double :=
  let (negative, body) := unsign (plainDigits (Text.trim Text.isSpace cs))
  if body = "inf".toList ∨ body = "infinity".toList then some (.infinite negative)
  else if body = "nan".toList then some .nan
  else
    let whole := body.takeWhile Char.isDigit
    let (fraction, rest) := match body.dropWhile Char.isDigit with
      | '.' :: rest => (rest.takeWhile Char.isDigit, rest.dropWhile Char.isDigit)
      | rest => ([], rest)
    let exponent? : Option Int := match rest with
      | [] => some 0
      | 'e' :: rest =>
        let (negative, ds) := unsign rest
        if ds ≠ [] ∧ ds.all Char.isDigit then some (signed negative (inBase 10 ds)) else none
      | _ => none
    if whole ++ fraction = [] then none
    else exponent?.map fun e =>
      .ofDecimal negative (inBase 10 (whole ++ fraction)) (e - fraction.length)

def asFloat (cs : List Char) : Meaning :=
  let (negative, body) := unsign ((cs.filter (· != '_')).map Char.toLower)
  let withSign (x : Double) : Meaning := float (if negative then x.neg else x)
  if cs.all (· == '_') then impossible
  else if body = ".inf".toList then withSign (.infinite false)
  else if body = ".nan".toList then float .nan
  else match (Text.splitAt ':' body).mapM readFloat? with
    | none => impossible
    | some [x] => withSign x
    | some parts => sixtieths negative parts.reverse

/-! ## Dates and bytes -/

/-- A date, after which the line may end. -/
def asDate (cs : List Char) : Meaning :=
  (date? 1 (if cs.getLast? = some '\n' then cs.dropLast else cs)).getD impossible

end Meaning

/-- The value of a digit in base sixty-four. -/
def digit64? (c : Char) : Option Nat :=
  if 'A' ≤ c ∧ c ≤ 'Z' then some (c.toNat - 65)
  else if 'a' ≤ c ∧ c ≤ 'z' then some (c.toNat - 71)
  else if '0' ≤ c ∧ c ≤ '9' then some (c.toNat + 4)
  else if c = '+' then some 62
  else if c = '/' then some 63
  else none

/-- Reads bytes in base sixty-four, from a digit of a group of four on, with the bits that are left of
the digits before it. What is no digit is passed over, and enough equals signs end the last group. -/
def read64 (place left fill : Nat) (reversed : List UInt8) : List Char → Option (List UInt8)
  | [] => if place = 0 then some reversed.reverse else none
  | c :: cs =>
    if c = '=' then
      if place < 2 then read64 place left fill reversed cs
      else if 3 ≤ place + fill then some reversed.reverse
      else read64 place left (fill + 1) reversed cs
    else match digit64? c, place with
      | none, _ => read64 place left fill reversed cs
      | some d, 0 => read64 1 d 0 reversed cs
      | some d, 1 => read64 2 (d % 16) 0 (UInt8.ofNat (4 * left + d / 16) :: reversed) cs
      | some d, 2 => read64 3 (d % 4) 0 (UInt8.ofNat (16 * left + d / 4) :: reversed) cs
      | some d, _ => read64 0 0 0 (UInt8.ofNat (64 * left + d) :: reversed) cs

/-- The bytes that a scalar spells in base sixty-four. -/
def asBytes? (cs : List Char) : Option (List UInt8) :=
  if cs.all (·.toNat < 128) then read64 0 0 0 [] cs else none

end Cadence.Yaml
