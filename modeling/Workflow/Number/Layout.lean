import Workflow.Number.Shortest

/-!
Laying out a number as text. A layout records the decisions of one text format; the digits are
always the fewest that read back.
-/

namespace Workflow

/-- How a format writes its finite numbers. -/
structure Layout where
  /-- The point is written after `k` digits (for `k ≤ 0`: before `-k` zeros) rather than an
  exponent if `plain k`. -/
  plain : Int → Bool
  /-- What follows the digits of a whole number. -/
  whole : List Char
  tie : Tie

namespace Layout

def digitsOf (n : Nat) : List Char := Nat.toDigits 10 n

/-- An exponent always carries a sign. -/
def exponentText (e : Int) : List Char :=
  'e' :: (if e < 0 then '-' else '+') :: digitsOf e.natAbs

/-- A decimal that is not zero. -/
def unsigned (l : Layout) (d : Decimal) : List Char :=
  let s := digitsOf d.digits
  let k := (s.length : Int) + d.exponent
  if l.plain k then
    if k ≤ 0 then '0' :: '.' :: List.replicate (-k).toNat '0' ++ s
    else if 0 ≤ d.exponent then s ++ List.replicate d.exponent.toNat '0' ++ l.whole
    else s.take k.toNat ++ '.' :: s.drop k.toNat
  else
    match s with
    | [c] => c :: exponentText (k - 1)
    | c :: r => c :: '.' :: r ++ exponentText (k - 1)
    | [] => []

/-- A finite number. -/
def finite (l : Layout) (x : Binary64) : List Char :=
  let body := if x.isZero then '0' :: l.whole else l.unsigned (x.shortest l.tie)
  if x.negative then '-' :: body else body

end Layout

end Workflow
