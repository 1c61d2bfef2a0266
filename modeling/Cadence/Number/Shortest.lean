import Cadence.Number.Double
import Cadence.Text.Numeral

/-!
# The shortest text of a double

The fewest digits that read back to the number, and of those the nearest. Numbers from `0.0001` up
to `1e16` are written out with a point, all others with an exponent of at least two digits.
-/

namespace Cadence.Double

/-- Whether `digits * 10 ^ exponent` reads back to a number. -/
def readsBack (x : Double) (negative : Bool) (digits : Nat) (exponent : Int) : Bool :=
  match x, ofDecimal negative digits exponent with
  | finite _ m e, finite _ m' e' => scaleUp m 1 (e + 1074) == scaleUp m' 1 (e' + 1074)
  | _, _ => false

/-- The number on a decimal grid, as a fraction of whole grid steps. -/
def onGrid (significand : Nat) (exponent grid : Int) : Nat × Nat :=
  let (n, d) := scaleUp significand 1 exponent
  if 0 ≤ grid then (n, d * Nat.pow 10 grid.toNat) else (n * Nat.pow 10 (-grid).toNat, d)

/-- The decimal point's place: `10 ^ place` is at most the number, which is below ten times it. -/
def placeOf (significand : Nat) (exponent : Int) : Int :=
  let (n, d) := scaleUp significand 1 exponent
  if d ≤ n then ((Nat.toDigits 10 (n / d)).length : Int) - 1
  else -((Nat.toDigits 10 ((d - 1) / n)).length : Int)

/-- The nearest grid point that reads back, on the coarsest grid that has one. -/
def shortestFrom (x : Double) (negative : Bool) (significand : Nat) (exponent place : Int) :
    Nat → Nat → Nat × Int
  | _, 0 => (0, 0)
  | count, fuel + 1 =>
    let grid := place - count + 1
    let (n, d) := onGrid significand exponent grid
    let low := n / d
    let nearest := roundHalfEven n d
    let other := if nearest = low then low + 1 else low
    if readsBack x negative nearest grid then (nearest, grid)
    else if readsBack x negative other grid then (other, grid)
    else shortestFrom x negative significand exponent place (count + 1) fuel

/-- Digits without the zeros at their end, each of which moves the exponent up. -/
def dropZeros (exponent : Int) : List Char → List Char × Int
  | [] => ([], exponent)
  | '0' :: ds => dropZeros (exponent + 1) ds
  | ds => (ds.reverse, exponent)

/-- The digits as text, with a point or an exponent. -/
def layout (digits : List Char) (exponent : Int) : List Char :=
  let place := (digits.length : Int) + exponent
  if -4 < place ∧ place ≤ 16 then
    if place ≤ 0 then '0' :: '.' :: List.replicate (-place).toNat '0' ++ digits
    else if digits.length ≤ place.toNat then
      digits ++ List.replicate (place.toNat - digits.length) '0' ++ ['.', '0']
    else digits.take place.toNat ++ '.' :: digits.drop place.toNat
  else
    let head := match digits with
      | [] => []
      | [d] => [d]
      | d :: ds => d :: '.' :: ds
    let power := place - 1
    let sign := if power < 0 then '-' else '+'
    let shown := Text.digits power.natAbs
    head ++ 'e' :: sign :: List.replicate (2 - shown.length) '0' ++ shown

/-- A double as text. -/
def text : Double → String
  | nan => "nan"
  | infinite negative => if negative then "-inf" else "inf"
  | finite negative significand exponent =>
    let body :=
      if significand = 0 then ['0', '.', '0']
      else
        let (n, grid) := shortestFrom (finite negative significand exponent) negative significand
          exponent (placeOf significand exponent) 1 17
        let (ds, e) := dropZeros grid (Text.digits n).reverse
        layout ds e
    String.ofList (if negative then '-' :: body else body)

end Cadence.Double
