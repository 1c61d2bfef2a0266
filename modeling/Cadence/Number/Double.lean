/-!
# Double-precision numbers

A number of a document may be a double. It is kept as sign, significand and exponent, so that
reading it and asking for its whole part is exact arithmetic.
-/

namespace Cadence

/-- A double: `significand * 2 ^ exponent` with a sign, or one of the values that are no number. -/
inductive Double where
  | finite (negative : Bool) (significand : Nat) (exponent : Int)
  | infinite (negative : Bool)
  | nan
  deriving Repr, DecidableEq

namespace Double

/-- The quotient rounded to a whole number, a half going to the even neighbour. -/
def roundHalfEven (num den : Nat) : Nat :=
  let q := num / den
  let r := num % den
  if 2 * r < den then q
  else if den < 2 * r then q + 1
  else if q % 2 = 0 then q else q + 1

/-- A fraction times a power of two, as a fraction. -/
def scaleUp (num den : Nat) (exponent : Int) : Nat × Nat :=
  if 0 ≤ exponent then (num * Nat.pow 2 exponent.toNat, den)
  else (num, den * Nat.pow 2 (-exponent).toNat)

/-- The exponent that leaves 53 bits before the point, or fewer for the smallest numbers. -/
def exponentFor (num den : Nat) : Int :=
  let guess : Int := (num.log2 : Int) - den.log2 - 53
  let (n, d) := scaleUp num den (-guess)
  max (if n / d < Nat.pow 2 53 then guess else guess + 1) (-1074)

/-- The double nearest to a fraction. -/
def ofFraction (negative : Bool) (num den : Nat) : Double :=
  if num = 0 then finite negative 0 0
  else
    let exponent := exponentFor num den
    let (n, d) := scaleUp num den (-exponent)
    let significand := roundHalfEven n d
    if 971 < exponent ∨ (exponent = 971 ∧ Nat.pow 2 53 ≤ significand) then infinite negative
    else finite negative significand exponent

/-- The double nearest to `digits * 10 ^ exponent`. -/
def ofDecimal (negative : Bool) (digits : Nat) (exponent : Int) : Double :=
  -- of numbers that are far too large or too small the power is not worked out
  if digits = 0 ∨ (digits.log2 : Int) + 3 * exponent < -1100 then finite negative 0 0
  else if 400 < exponent then infinite negative
  else if 0 ≤ exponent then ofFraction negative (digits * Nat.pow 10 exponent.toNat) 1
  else ofFraction negative digits (Nat.pow 10 (-exponent).toNat)

/-! ## Arithmetic -/

/-- The double nearest to a whole number times a power of two. -/
def ofScaled (negative : Bool) (n : Nat) (exponent : Int) : Double :=
  let (num, den) := scaleUp n 1 exponent
  ofFraction negative num den

def neg : Double → Double
  | finite negative m e => finite (!negative) m e
  | infinite negative => infinite (!negative)
  | nan => nan

/-- The sum, rounded. Zero has a minus only if both numbers have one. -/
def add : Double → Double → Double
  | finite a m e, finite b n f =>
    let least := min e f
    let whole (negative : Bool) (m : Nat) (e : Int) : Int :=
      let n : Nat := m * Nat.pow 2 (e - least).toNat
      if negative then -(n : Int) else n
    let sum := whole a m e + whole b n f
    if sum = 0 then finite (a && b) 0 0 else ofScaled (sum < 0) sum.natAbs least
  | infinite a, infinite b => if a = b then infinite a else nan
  | nan, _ | _, nan => nan
  | infinite a, _ | _, infinite a => infinite a

/-- The product, rounded. -/
def mul : Double → Double → Double
  | finite a m e, finite b n f => ofScaled (a != b) (m * n) (e + f)
  | nan, _ | _, nan => nan
  | infinite a, infinite b => infinite (a != b)
  | infinite a, finite b n _ | finite b n _, infinite a => if n = 0 then nan else infinite (a != b)

/-- The first whole number that is too large for a double. It lies halfway between the largest double
and the power of two after it, and a half goes to the even neighbour. -/
@[irreducible]
def limit : Nat := Nat.pow 2 1024 - Nat.pow 2 970

/-- Numbers of units that grow by sixty, the smallest first, added to a sum and rounded at every step.
There is no sum if no double can hold a unit. -/
def sixtieths? (unit : Nat) (sum : Double) : List Double → Option Double
  | [] => some sum
  | x :: xs =>
    if limit ≤ unit then none
    else sixtieths? (60 * unit) (sum.add (x.mul (ofFraction false unit 1))) xs

/-! ## The whole part -/

/-- The whole part and whether nothing is left over. -/
def split (significand : Nat) (exponent : Int) : Nat × Bool :=
  if 0 ≤ exponent then (significand * Nat.pow 2 exponent.toNat, true)
  else
    let den := Nat.pow 2 (-exponent).toNat
    (significand / den, significand % den = 0)

/-- The number without what stands after its point. -/
def truncate? : Double → Option Int
  | finite negative significand exponent =>
    let n := (split significand exponent).1
    some (if negative then -(n : Int) else n)
  | _ => none

/-- A number with nothing after its point. -/
def isWhole : Double → Bool
  | finite _ significand exponent => (split significand exponent).2
  | _ => false

end Double

end Cadence
