import Workflow.Number.Binary64

/-!
The fewest decimal digits that read back to a given number. The reals that round to a finite
number form an interval. The grids of 1, 2, up to 17 digits are searched in turn for a point in
the interval: only the two neighbours of the number on a grid can be one. The first grid with a
hit wins; of two hits the nearer.
-/

namespace Workflow

/-- Stands for `digits * 10 ^ exponent`. -/
structure Decimal where
  digits : Nat
  exponent : Int
deriving DecidableEq, Inhabited

/-- Which of two equally near decimals is taken. -/
inductive Tie where
  | toEven
  | upward
deriving DecidableEq

namespace Decimal

/-- Compares `a * 10 ^ i` with `b * 2 ^ j`. -/
def compareScaled (a : Nat) (i : Int) (b : Nat) (j : Int) : Ordering :=
  compare (a * powerOfTen i.toNat * powerOfTwo (-j).toNat)
    (b * powerOfTwo j.toNat * powerOfTen (-i).toNat)

/-- Takes zeros at the end of the digits into the exponent, at most `n` of them. -/
def trim : Nat → Decimal → Decimal
  | 0, d => d
  | n + 1, d => if d.digits % 10 = 0 then trim n ⟨d.digits / 10, d.exponent + 1⟩ else d

end Decimal

namespace Binary64

/-- Below a power of two the next number is only half as far away as above it. -/
def narrowBelow (x : Binary64) : Bool :=
  x.magnitude % hiddenBit = 0 && 2 ≤ x.magnitude / hiddenBit

/-- The decimal lies among the reals that round to the distance of `x` from zero. -/
def readsBack (x : Binary64) (d : Decimal) : Bool :=
  let low := if x.narrowBelow then 4 * x.significand - 1 else 4 * x.significand - 2
  let high := 4 * x.significand + 2
  let closed := x.significand % 2 = 0
  let below := Decimal.compareScaled d.digits d.exponent low (x.exponent - 2)
  let above := Decimal.compareScaled d.digits d.exponent high (x.exponent - 2)
  (below = .gt || (closed && below = .eq)) && (above = .lt || (closed && above = .eq))

/-- The distance of `x` from zero is `exactDigits * 10 ^ exactExponent`. -/
def exactDigits (x : Binary64) : Nat :=
  x.significand * powerOfTwo x.exponent.toNat * powerOfFive (-x.exponent).toNat

def exactExponent (x : Binary64) : Int := min x.exponent 0

/-- The least `k` such that `x` is nearer to zero than `10 ^ k`. -/
def decimalScale (x : Binary64) : Int :=
  (Nat.toDigits 10 x.exactDigits).length + x.exactExponent

/-- The largest natural whose product with `10 ^ p` does not exceed the distance of `x` from
zero. -/
def floorAt (x : Binary64) (p : Int) : Nat :=
  x.significand * powerOfTwo x.exponent.toNat * powerOfTen (-p).toNat /
    (powerOfTwo (-x.exponent).toNat * powerOfTen p.toNat)

/-- The nearer of the two neighbours of `x` on the grid of `10 ^ p` that read back. -/
def onGrid (tie : Tie) (x : Binary64) (p : Int) : Option Decimal :=
  let c := x.floorAt p
  match x.readsBack ⟨c, p⟩, x.readsBack ⟨c + 1, p⟩ with
  | false, false => none
  | true, false => some ⟨c, p⟩
  | false, true => some ⟨c + 1, p⟩
  | true, true =>
    match Decimal.compareScaled (2 * c + 1) p (2 * x.significand) x.exponent with
    | .lt => some ⟨c + 1, p⟩
    | .gt => some ⟨c, p⟩
    | .eq => some ⟨if tie = .toEven ∧ c % 2 = 0 then c else c + 1, p⟩

/-- The fewest digits that read back to the finite number `x`, its sign aside. -/
def shortest (tie : Tie) (x : Binary64) : Decimal :=
  let found := (List.range 17).findSome? fun (n : Nat) =>
    x.onGrid tie (x.decimalScale - (n + 1 : Nat))
  (found.getD ⟨x.exactDigits, x.exactExponent⟩).trim 800

end Binary64

end Workflow
