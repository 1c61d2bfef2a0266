import Cadence.Text.Blank
import Cadence.Text.Digit

/-!
# Whole numbers as text

A number is written in plain decimal. It is read with more freedom: white space around it, one sign,
digits of any script, and single underscores between digits. Neither way may it have too many
digits.
-/

namespace Cadence.Text

/-- The most decimal digits that a number may have as text. -/
def digitLimit : Nat := 4300

/-- The decimal digits of a number, with no leading zero. -/
def digits (n : Nat) : List Char := Nat.toDigits 10 n

/-- A whole number in decimal, with a minus sign when it is negative. -/
def numeral : Int → List Char
  | .ofNat n => digits n
  | .negSucc n => '-' :: digits (n + 1)

/-- The characters cut at every occurrence of one of them. There is always a first piece. -/
def splitAt (sep : Char) : List Char → List (List Char)
  | [] => [[]]
  | c :: cs =>
    if c = sep then [] :: splitAt sep cs
    else match splitAt sep cs with
      | [] => [[c]]
      | piece :: pieces => (c :: piece) :: pieces

theorem splitAt_of_not_mem {sep : Char} {cs : List Char} (h : sep ∉ cs) :
    splitAt sep cs = [cs] := by
  induction cs with
  | nil => rfl
  | cons c cs ih =>
    rw [List.mem_cons, not_or] at h
    rw [splitAt, if_neg (Ne.symm h.1), ih h.2]

theorem splitAt_append {sep : Char} {cs : List Char} (h : sep ∉ cs) (rest : List Char) :
    splitAt sep (cs ++ sep :: rest) = cs :: splitAt sep rest := by
  induction cs with
  | nil => rw [List.nil_append, splitAt, if_pos rfl]
  | cons c cs ih =>
    rw [List.mem_cons, not_or] at h
    rw [List.cons_append, splitAt, if_neg (Ne.symm h.1), ih h.2]

/-- Reads digits on to a number read so far, with single underscores between them. -/
def readDigits (value? : Char → Option Nat) (sofar : Nat) : List Char → Option Nat
  | [] => some sofar
  | '_' :: c :: cs => (value? c).bind fun d => readDigits value? (10 * sofar + d) cs
  | c :: cs => (value? c).bind fun d => readDigits value? (10 * sofar + d) cs

/-- Reads a number without a sign: it begins with a digit. -/
def readNat (value? : Char → Option Nat) : List Char → Option Nat
  | [] => none
  | c :: cs => (value? c).bind fun d => readDigits value? d cs

/-- Reads a number with at most one sign in front. -/
def readSigned (value? : Char → Option Nat) : List Char → Option Int
  | '-' :: cs => (readNat value? cs).map fun n => -(n : Int)
  | '+' :: cs => (readNat value? cs).map Int.ofNat
  | cs => (readNat value? cs).map Int.ofNat

/-- The digits of the number that a text begins with, counted. Nothing is counted if underscores stand
where they may not. -/
def leadingDigits (value? : Char → Option Nat) (cs : List Char) : Nat :=
  let run := cs.takeWhile fun c => c == '_' || (value? c).isSome
  if (readNat value? run).isSome then run.countP (· != '_') else 0

/-- The characters after at most one sign. -/
def dropSign : List Char → List Char
  | '-' :: cs => cs
  | '+' :: cs => cs
  | cs => cs

/-- How many digits are met where a whole number is read, also if what follows them is no number. -/
def digitCount (cs : List Char) : Nat :=
  leadingDigits digitValue? (dropSign (trim isSpace cs))

/-- Reads a whole number the free way, if it has not too many digits. -/
def readInt (cs : List Char) : Option Int :=
  if digitLimit < digitCount cs then none else readSigned digitValue? (trim isSpace cs)

end Cadence.Text
