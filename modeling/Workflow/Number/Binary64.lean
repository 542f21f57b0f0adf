import Workflow.Number.Word

/-!
Numbers of 64 bits: a sign, eleven bits of exponent and 52 of fraction. They are told apart by
their bits and compared by their value. Arithmetic is exact on naturals, then rounded once to
nearest, ties to even.
-/

namespace Workflow

structure Binary64 where
  bits : UInt64
deriving DecidableEq, Inhabited

namespace Binary64

/-- The weight of the sign. -/
def signBit : Nat := 0x8000000000000000

/-- The weight of the exponent, and of the leading digit that a fraction leaves out. -/
def hiddenBit : Nat := 0x10000000000000

/-- The magnitude of the infinities; a larger one is no number. -/
def infinity : Nat := 0x7FF0000000000000

def zero : Binary64 := ⟨0⟩

def negative (x : Binary64) : Bool := signBit ≤ x.bits.toNat

/-- The bits without the sign. Of two numbers the one with more magnitude is further from zero. -/
def magnitude (x : Binary64) : Nat := x.bits.toNat % signBit

def isNaN (x : Binary64) : Bool := infinity < x.magnitude

def isInfinite (x : Binary64) : Bool := x.magnitude = infinity

def isFinite (x : Binary64) : Bool := x.magnitude < infinity

/-- Both zeros are zero. -/
def isZero (x : Binary64) : Bool := x.magnitude = 0

/-- Orders numbers by value. The two zeros share a rank. -/
def rank (x : Binary64) : Int := if x.negative then -(x.magnitude : Int) else x.magnitude

/-- Compares by value. What is no number compares with nothing. -/
def compare? (x y : Binary64) : Option Ordering :=
  if x.isNaN || y.isNaN then none else some (compare x.rank y.rank)

/-- Equality by value: the zeros are equal, and what is no number equals nothing. -/
def equal (x y : Binary64) : Bool := !x.isNaN && !y.isNaN && x.rank = y.rank

def ofMagnitude (negative : Bool) (m : Nat) : Binary64 :=
  ⟨UInt64.ofNat (m + if negative then signBit else 0)⟩

def neg (x : Binary64) : Binary64 := ofMagnitude (!x.negative) x.magnitude

/-- The distance of a finite number from zero is `significand * 2 ^ exponent`. -/
def significand (x : Binary64) : Nat :=
  if x.magnitude / hiddenBit = 0 then x.magnitude else x.magnitude % hiddenBit + hiddenBit

def exponent (x : Binary64) : Int :=
  if x.magnitude / hiddenBit = 0 then -1074 else (x.magnitude / hiddenBit : Nat) - 1075

/-- The natural nearest to `num / den`, of two the even one. -/
def roundQuotient (num den : Nat) : Nat :=
  let q := num / den
  match compare (2 * (num % den)) den with
  | .lt => q
  | .gt => q + 1
  | .eq => if q % 2 = 0 then q else q + 1

/-- The quotient of the two results is `num / den / 2 ^ e`. -/
def scaleDown (num den : Nat) (e : Int) : Nat × Nat :=
  (num * powerOfTwo (-e).toNat, den * powerOfTwo e.toNat)

/-- The exponent of the last of 53 binary digits of `num / den`, or -1074 if that is larger. -/
def lastPlace (num den : Nat) : Int :=
  let e : Int := (Nat.log2 num : Int) - Nat.log2 den - 53
  let (n, d) := scaleDown num den e
  max (if n < d * (2 * hiddenBit) then e else e + 1) (-1074)

/-- The magnitude nearest to `num / den`; too large a quotient gives infinity. -/
def roundedMagnitude (num den : Nat) : Nat :=
  let e := lastPlace num den
  let (n, d) := scaleDown num den e
  if num = 0 then 0 else min ((e + 1074).toNat * hiddenBit + roundQuotient n d) infinity

/-- The number nearest to `num / den`. -/
def ofQuotient (num den : Nat) : Binary64 := ofMagnitude false (roundedMagnitude num den)

def ofNat (n : Nat) : Binary64 := ofQuotient n 1

def ofInt (n : Int) : Binary64 :=
  if n < 0 then (ofNat n.natAbs).neg else ofNat n.natAbs

/-- The product of two finite numbers that are not negative. -/
def mul (x y : Binary64) : Binary64 :=
  let e := x.exponent + y.exponent
  ofQuotient (x.significand * y.significand * powerOfTwo e.toNat) (powerOfTwo (-e).toNat)

/-- The quotient of two finite numbers that are not negative, the second not zero. -/
def div (x y : Binary64) : Binary64 :=
  let e := x.exponent - y.exponent
  ofQuotient (x.significand * powerOfTwo e.toNat) (y.significand * powerOfTwo (-e).toNat)

/-- The number nearest to `10 ^ k`. -/
def ofPowerOfTen (k : Nat) : Binary64 := ofNat (powerOfTen k)

end Binary64

end Workflow
