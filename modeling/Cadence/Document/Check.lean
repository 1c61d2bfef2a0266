import Cadence.Document.Basic
import Cadence.Document.Issue
import Cadence.Value

/-!
# Checking documents

Plain data becomes a document when every field fits. Numbers may also be given as text, as a
double without a fraction, or as a truth value; unknown fields are passed over.
-/

namespace Cadence

namespace Value

/-! ## Leaves -/

/-- Zeros and underscores after a zero that a number begins with count for nothing. Where nothing follows
them the last one stays. -/
def dropZeros (cs : List Char) : List Char :=
  let isIdle (c : Char) := c == '0' || c == '_'
  if cs.head? = some '0' then
    match cs.dropWhile isIdle with
    | [] => (cs.takeWhile isIdle).getLast?.toList
    | rest => rest
  else cs

/-- A number given as text: blanks around it, one sign, single underscores between its digits, not too
many of them, and a point with zeros after it. -/
def readNumber (s : String) : Option Int :=
  let digit? (c : Char) : Option Nat := if c.isDigit then some (c.toNat - 48) else none
  let read (ds : List Char) : Option Nat :=
    if Text.digitLimit < ds.countP (· != '_') then none else Text.readNat digit? ds
  let signed : List Char → Option Int
    | '-' :: ds => (read ds).map fun n => -(n : Int)
    | '+' :: ds => (read (dropZeros ds)).map Int.ofNat
    | ds => (read (dropZeros ds)).map Int.ofNat
  match Text.splitAt '.' (Text.trim Text.isSpace s.toList) with
  | [whole] => signed whole
  | [whole, zeros] => if zeros ≠ [] ∧ zeros.all (· == '0') then signed whole else none
  | _ => none

/-- A text that begins with more digits than a number may have. -/
def isLongNumber (s : String) : Bool :=
  let ds := match s.toList with
    | '-' :: cs => cs.takeWhile Char.isDigit
    | cs => cs.takeWhile Char.isDigit
  ds.head? != some '0' && Text.digitLimit < ds.length

/-- A text as a whole number. -/
def checkNumber (s : String) : Checked Int :=
  match readNumber s with
  | some n => .ok n
  | none => Checked.flaw (if isLongNumber s then .intParsingSize else .intParsing)

/-- The value as a text. Bytes may be one. -/
def checkText : Value → Checked Name
  | text s => .ok s
  | brokenText b => .ok (.broken b)
  | bytes bs =>
    match String.fromUTF8? ⟨bs.toArray⟩ with
    | some s => .ok s
    | none => Checked.flaw .stringUnicode
  | _ => Checked.flaw .stringType

/-- The value as a whole number. A double must be one that 64 bits can hold. -/
def checkInt : Value → Checked Int
  | int n => .ok n
  | bool b => .ok (if b then 1 else 0)
  | float x =>
    match x.truncate? with
    | none => Checked.flaw .finiteNumber
    | some n =>
      if !x.isWhole then Checked.flaw .intFromFloat
      else if n.natAbs < Nat.pow 2 63 then .ok n
      else Checked.flaw .intParsingSize
  | text s => checkNumber s
  | brokenText _ => Checked.flaw .stringUnicode
  | bytes bs =>
    match String.fromUTF8? ⟨bs.toArray⟩ with
    | some s => checkNumber s
    | none => Checked.flaw .intParsing
  | _ => Checked.flaw .intType

/-- The value as a number that is not negative. -/
def checkNat (v : Value) : Checked Nat :=
  match v.checkInt with
  | .ok n => if 0 ≤ n then .ok n.toNat else Checked.flaw .greaterThanEqual
  | .error issues => .error issues

/-- The value as a tempo. -/
def checkTempo (v : Value) : Checked Tempo :=
  match v.checkInt with
  | .ok n =>
    if hpos : 0 < n then
      if hle : n ≤ 255 then .ok ⟨n.toNat, by omega, by omega⟩
      else Checked.flaw .lessThanEqual
    else Checked.flaw .greaterThan
  | .error issues => .error issues

/-! ## Lists and fields -/

/-- The value as a list of any length. -/
def checkList {α : Type} (check : Value → Checked α) : Value → Checked (List α)
  | list vs => Checked.items check 0 vs
  | _ => Checked.flaw .listType

/-- The value as a list of exactly two. -/
def checkPair {α β : Type} (first : Value → Checked α) (second : Value → Checked β) :
    Value → Checked (α × β)
  | list vs =>
    let at0 := Checked.under (.index 0) (α := α)
    let at1 := Checked.under (.index 1) (α := β)
    match vs with
    | [] => Checked.both (at0 (Checked.flaw .missing)) (at1 (Checked.flaw .missing))
    | [a] => Checked.both (at0 (first a)) (at1 (Checked.flaw .missing))
    | [a, b] => Checked.both (at0 (first a)) (at1 (second b))
    | _ => Checked.flaw .tooLong
  | _ => Checked.flaw .tupleType

/-- A field that may be absent or null. -/
def optionalField {α : Type} (entries : List (String × Value)) (name : String)
    (check : Value → Checked α) : Checked (Option α) :=
  match lookup entries name with
  | none | some null => .ok none
  | some v => (Checked.under (.field name) (check v)).map some

/-- A field that must be there. -/
def requiredField {α : Type} (entries : List (String × Value)) (name : String)
    (check : Value → Checked α) : Checked α :=
  Checked.under (.field name) <|
    match lookup entries name with
    | none => Checked.flaw .missing
    | some v => check v

end Value

open Value

/-! ## The parts of a document -/

namespace Signature

/-- A signature is a list of two numbers. -/
def check (v : Value) : Checked Signature :=
  (checkPair checkInt checkInt v).map fun (n, d) => ⟨n, d⟩

end Signature

namespace Master

def check : Value → Checked Master
  | .map es =>
    (Checked.both (optionalField es "key" checkText)
      (Checked.both (optionalField es "time" checkTempo)
        (optionalField es "signature" Signature.check))).map
      fun (key, tempo, signature) => ⟨key, tempo, signature⟩
  | _ => Checked.flaw .modelType

end Master

namespace EventEntry

/-- The fields of an event in the order of its short form. -/
def fieldNames : List String := ["bar", "beat", "beat_interval", "chord", "transpose"]

/-- An event from named fields. -/
def checkFields (es : List (String × Value)) : Checked EventEntry :=
  (Checked.both (requiredField es "bar" checkNat)
    (Checked.both (requiredField es "beat" checkNat)
      (Checked.both (requiredField es "beat_interval" checkNat)
        (Checked.both (requiredField es "chord" checkText)
          (match lookup es "transpose" with
            | none => .ok 0
            | some v => Checked.under (.field "transpose") (checkInt v)))))).map
    fun (bar, beat, interval, chord, transpose) => ⟨bar, beat, interval, chord, transpose⟩

/-- An event is a list of four or five values, or has named fields. -/
def check : Value → Checked EventEntry
  | .list vs =>
    if vs.length = 4 ∨ vs.length = 5 then checkFields (fieldNames.zip vs)
    else Checked.flaw .valueError
  | .map es => checkFields es
  | _ => Checked.flaw .modelType

end EventEntry

namespace PatternEntry

def check : Value → Checked PatternEntry
  | .map es =>
    (Checked.both (optionalField es "name" checkText)
      (Checked.both (optionalField es "master" Master.check)
        (optionalField es "pattern" (checkList EventEntry.check)))).map
      fun (name, master, events) => ⟨name, master, events⟩
  | _ => Checked.flaw .modelType

end PatternEntry

namespace Document

/-- A document from the fields of a mapping. -/
def check (es : List (String × Value)) : Checked Document :=
  (Checked.both (optionalField es "name" checkText)
    (Checked.both (optionalField es "master" Master.check)
      (Checked.both (optionalField es "chords" (checkList (checkPair checkText (checkList checkInt))))
        (optionalField es "patterns" (checkList PatternEntry.check))))).map
    fun (name, master, chords, patterns) => ⟨name, master, chords, patterns⟩

end Document

end Cadence
