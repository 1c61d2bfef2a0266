import Cadence.Number.Double
import Cadence.Text.Numeral

/-!
# What plain scalars mean

A scalar without quotes may be more than text: nothing, a truth value, a number in one of many
notations, a date, or one of two marks. Only its spelling decides.
-/

namespace Cadence.Yaml

/-- What a plain scalar stands for. -/
inductive Meaning where
  | null
  | bool (b : Bool)
  | int (n : Int)
  | float (x : Double)
  | date
  | dateTime
  /-- a number without digits or with too many, a date that no calendar has, or what is not of the type
  that is asked for -/
  | impossible
  /-- the mark of a merge -/
  | merge
  /-- the mark of a default -/
  | default
  | text
  deriving Repr, DecidableEq

namespace Meaning

def trueWords : List String := ["yes", "Yes", "YES", "true", "True", "TRUE", "on", "On", "ON"]

def falseWords : List String := ["no", "No", "NO", "false", "False", "FALSE", "off", "Off", "OFF"]

def nullWords : List String := ["", "~", "null", "Null", "NULL"]

/-- Takes a sign off, and says whether it was a minus. -/
def unsign : List Char → Bool × List Char
  | '-' :: cs => (true, cs)
  | '+' :: cs => (false, cs)
  | cs => (false, cs)

def signed (negative : Bool) (n : Nat) : Int := if negative then -(n : Int) else n

/-- The number that digits spell in a base. Underscores are passed over. -/
def inBase (base : Nat) (cs : List Char) : Nat :=
  (cs.filter (· != '_')).foldl (fun n c => base * n + hexDigit c) 0
where
  hexDigit (c : Char) : Nat :=
    if c.isDigit then c.toNat - 48 else if c.isLower then c.toNat - 87 else c.toNat - 55

/-- Only characters of a class and underscores. -/
def spells (p : Char → Bool) (cs : List Char) : Bool := cs.all fun c => p c || c == '_'

def isHex (c : Char) : Bool := c.isDigit || ('a' ≤ c && c ≤ 'f') || ('A' ≤ c && c ≤ 'F')

/-- A digit, and then digits and underscores. -/
def isNumber : List Char → Bool
  | [] => false
  | c :: cs => c.isDigit && spells Char.isDigit cs

/-! ## Whole numbers -/

/-- One or two digits that are less than sixty. -/
def isSixtieth : List Char → Bool
  | [a] => a.isDigit
  | [a, b] => '0' ≤ a && a ≤ '5' && b.isDigit
  | _ => false

/-- Number of digits in a base, which may turn out to be none. -/
def based (negative : Bool) (base : Nat) (cs : List Char) : Meaning :=
  if cs.all (· == '_') then impossible else int (signed negative (inBase base cs))

/-- The most digits that a number in base ten may have. Other bases have no such limit. -/
def digitLimit : Nat := Text.digitLimit

/-- The meaning as a whole number, if it is one. -/
def int? (cs : List Char) : Option Meaning :=
  let (negative, body) := unsign cs
  match body with
  | [] => none
  | ['0'] => some (int 0)
  | '0' :: 'b' :: ds =>
    if ds ≠ [] ∧ spells (fun c => c == '0' || c == '1') ds then some (based negative 2 ds) else none
  | '0' :: 'x' :: ds =>
    if ds ≠ [] ∧ spells isHex ds then some (based negative 16 ds) else none
  | '0' :: ds =>
    if spells (fun c => '0' ≤ c && c ≤ '7') ds then some (int (signed negative (inBase 8 ds))) else none
  | _ =>
    match Text.splitAt ':' body with
    | first :: others =>
      if isNumber first ∧ others.all isSixtieth then
        if digitLimit < (first.filter (· != '_')).length then some impossible
        else some (int (signed negative (others.foldl (fun n part => 60 * n + inBase 10 part)
          (inBase 10 first))))
      else none
    | [] => none

/-! ## Doubles -/

/-- Reads an exponent, which has a sign. Without one it is zero. -/
def exponent? : List Char → Option Int
  | [] => some 0
  | e :: sign :: ds =>
    if (e = 'e' ∨ e = 'E') ∧ (sign = '+' ∨ sign = '-') ∧ ds ≠ [] ∧ ds.all Char.isDigit then
      some (signed (sign = '-') (inBase 10 ds))
    else none
  | _ => none

/-- Digits before a point, and digits and an exponent after it. -/
def decimal? (negative : Bool) (whole rest : List Char) : Option Meaning :=
  let isFraction (c : Char) := c.isDigit || c == '_'
  let fraction := (rest.takeWhile isFraction).filter (· != '_')
  (exponent? (rest.dropWhile isFraction)).map fun e =>
    float (Double.ofDecimal negative (inBase 10 (whole ++ fraction)) (e - fraction.length))

/-- Parts of a number in base sixty, the last one first. Of too many parts there is no sum. -/
def sixtieths (negative : Bool) (parts : List Double) : Meaning :=
  match Double.sixtieths? 1 (.finite false 0 0) parts with
  | some x => float (if negative then x.neg else x)
  | none => impossible

/-- The meaning as a double, if it is one. -/
def float? (cs : List Char) : Option Meaning :=
  let (negative, body) := unsign cs
  match Text.splitAt '.' body with
  | [[], rest] =>
    if rest = ['i', 'n', 'f'] ∨ rest = ['I', 'n', 'f'] ∨ rest = ['I', 'N', 'F'] then
      some (float (.infinite negative))
    else if body.length ≠ cs.length then none
    else if rest = ['n', 'a', 'n'] ∨ rest = ['N', 'a', 'N'] ∨ rest = ['N', 'A', 'N'] then
      some (float .nan)
    else if rest.head?.any Char.isDigit then decimal? false [] rest
    else none
  | [whole, rest] =>
    match (Text.splitAt ':' whole).reverse with
    | last :: first :: others =>
      let parts := first :: others
      if parts.getLast?.any isNumber && parts.dropLast.all isSixtieth && isSixtieth last &&
          spells Char.isDigit rest then
        let fraction := rest.filter (· != '_')
        let x := Double.ofDecimal false (inBase 10 (last ++ fraction)) (-fraction.length)
        some (sixtieths negative
          (x :: parts.map fun part => Double.ofDecimal false (inBase 10 part) 0))
      else none
    | _ => if isNumber whole then decimal? negative whole rest else none
  | _ => none

/-! ## Dates -/

/-- Days in a month of a year. -/
def daysIn (year month : Nat) : Nat :=
  if month = 2 then
    if year % 4 = 0 ∧ (year % 100 ≠ 0 ∨ year % 400 = 0) then 29 else 28
  else if month = 4 ∨ month = 6 ∨ month = 9 ∨ month = 11 then 30
  else 31

/-- Whether a calendar has a day. -/
def isDay (year month day : List Char) : Bool :=
  let y := inBase 10 year
  let m := inBase 10 month
  let d := inBase 10 day
  1 ≤ y && 1 ≤ m && m ≤ 12 && 1 ≤ d && d ≤ daysIn y m

/-- Digits, of which there are between two numbers. -/
def isDigits (least most : Nat) (cs : List Char) : Bool :=
  least ≤ cs.length && cs.length ≤ most && cs.all Char.isDigit

/-- Whether a time zone is written, and whether it is less than a day away. -/
def zone? (cs : List Char) : Option Bool :=
  match cs.dropWhile fun c => c == ' ' || c == '\t' with
  | [] => if cs = [] then some true else none
  | ['Z'] => some true
  | sign :: rest =>
    if sign = '+' ∨ sign = '-' then
      match Text.splitAt ':' rest with
      | [hours] => if isDigits 1 2 hours then some (inBase 10 hours < 24) else none
      | [hours, minutes] =>
        if isDigits 1 2 hours && isDigits 2 2 minutes then
          some (inBase 10 hours * 60 + inBase 10 minutes < 24 * 60)
        else none
      | _ => none
    else none

/-- Whether seconds and a time zone are written, and whether there are such. -/
def seconds? : List Char → Option Bool
  | a :: b :: rest =>
    if a.isDigit && b.isDigit then
      let zone := match rest with
        | '.' :: rest => rest.dropWhile Char.isDigit
        | _ => rest
      (zone? zone).map fun near => near && inBase 10 [a, b] < 60
    else none
  | _ => none

/-- Whether a time of day is written, and whether there is such. -/
def clock? (cs : List Char) : Option Bool :=
  let hour := cs.takeWhile Char.isDigit
  match cs.dropWhile Char.isDigit with
  | ':' :: a :: b :: ':' :: rest =>
    if isDigits 1 2 hour && a.isDigit && b.isDigit then
      (seconds? rest).map fun fits => fits && inBase 10 hour < 24 && inBase 10 [a, b] < 60
    else none
  | _ => none

/-- The time of day after a date: after one letter, or after blanks. -/
def afterDate : List Char → Option (List Char)
  | [] => none
  | c :: cs =>
    if c = 'T' ∨ c = 't' then some cs
    else if c = ' ' ∨ c = '\t' then some (cs.dropWhile fun c => c == ' ' || c == '\t')
    else none

/-- The meaning as a date, if it is one. Without a time of day, the month and the day have a least number
of digits. -/
def date? (least : Nat) (cs : List Char) : Option Meaning :=
  match Text.splitAt '-' cs with
  | year :: month :: rest :: more =>
    let rest := (rest :: more).intersperse ['-'] |>.flatten
    let day := rest.takeWhile Char.isDigit
    let after := rest.dropWhile Char.isDigit
    if !isDigits 4 4 year then none
    else if after = [] then
      if isDigits least 2 month && isDigits least 2 day then
        some (if isDay year month day then date else impossible)
      else none
    else if isDigits 1 2 month && isDigits 1 2 day then
      ((afterDate after).bind clock?).map fun fits =>
        if fits && isDay year month day then dateTime else impossible
    else none
  | _ => none

/-! ## All of them -/

/-- What a plain scalar stands for. -/
def ofPlain (cs : List Char) : Meaning :=
  let word := String.ofList cs
  if nullWords.contains word then null
  else if trueWords.contains word then bool true
  else if falseWords.contains word then bool false
  else if cs = ['<', '<'] then merge
  else if cs = ['='] then default
  else (((float? cs).or (int? cs)).or (date? 2 cs)).getD text

end Meaning

end Cadence.Yaml
