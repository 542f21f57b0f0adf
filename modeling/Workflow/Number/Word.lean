/-!
Words of 64 bits, and powers.
-/

namespace Workflow

/-- Naturals below this fit a word. -/
def wordLimit : Nat := 0x10000000000000000

/-- Integers from its negative to just below this fit a word with a sign. -/
def signLimit : Nat := 0x8000000000000000

/-- Two to the power of `k`. -/
def powerOfTwo (k : Nat) : Nat := Nat.pow 2 k

/-- Five to the power of `k`. -/
def powerOfFive (k : Nat) : Nat := Nat.pow 5 k

/-- Ten to the power of `k`. -/
def powerOfTen (k : Nat) : Nat := Nat.pow 10 k

end Workflow
