import Workflow.Json.Basic

/-!
Number literals: their grammar, and the numbers that they name. Digits are read into a natural
below `2 ^ 64`; the rest only counts for the scale. The natural is rounded, and the result is
multiplied or divided by a rounded power of ten and rounded again.
-/

namespace Workflow.Json

structure Literal where
  negative : Bool
  whole : List Nat
  /-- Empty if there is no point. -/
  fraction : List Nat
  exponent : Option Int
deriving DecidableEq

namespace Literal

def digit? (c : Char) : Option Nat :=
  if '0' ≤ c ∧ c ≤ '9' then some (c.toNat - '0'.toNat) else none

/-- The digits at the front of a text, and what follows them. -/
def spanDigits : List Char → List Nat × List Char
  | [] => ([], [])
  | c :: r => match digit? c with
    | some d => (d :: (spanDigits r).1, (spanDigits r).2)
    | none => ([], c :: r)

/-- At least one digit. -/
def someDigits (cs : List Char) : Option (List Nat × List Char) :=
  match spanDigits cs with
  | ([], _) => none
  | (ds, r) => some (ds, r)

def scanSign : List Char → Bool × List Char
  | '-' :: r => (true, r)
  | cs => (false, cs)

/-- A leading zero stands alone. -/
def scanWhole (cs : List Char) : Option (List Nat × List Char) :=
  match someDigits cs with
  | some (0 :: _ :: _, _) => none
  | found => found

def scanFraction : List Char → Option (List Nat × List Char)
  | '.' :: r => someDigits r
  | cs => some ([], cs)

def ofDigits (ds : List Nat) : Nat := ds.foldl (fun n d => n * 10 + d) 0

def scanExponent : List Char → Option (Option Int × List Char)
  | c :: r =>
    if c = 'e' ∨ c = 'E' then
      let (negative, r) := match r with
        | '+' :: r => (false, r)
        | '-' :: r => (true, r)
        | r => (false, r)
      match someDigits r with
      | none => none
      | some (ds, r) => some (some (if negative then -(ofDigits ds : Int) else ofDigits ds), r)
    else some (none, c :: r)
  | [] => some (none, [])

/-- The literal at the front of a text, and what follows it. -/
def scan (cs : List Char) : Option (Literal × List Char) := do
  let (negative, cs) := scanSign cs
  let (whole, cs) ← scanWhole cs
  let (fraction, cs) ← scanFraction cs
  let (exponent, cs) ← scanExponent cs
  return (⟨negative, whole, fraction, exponent⟩, cs)

/-- Appends digits to `n` as long as it stays below `2 ^ 64`. Gives the digits left over. -/
def absorb (n : Nat) : List Nat → Nat × List Nat
  | [] => (n, [])
  | d :: r => if n * 10 + d < wordLimit then absorb (n * 10 + d) r else (n, d :: r)

/-- Divides by `10 ^ k`, in steps of at most `10 ^ 308`. -/
def divided (x : Binary64) (k : Nat) : Binary64 :=
  if k ≤ 308 then x.div (.ofPowerOfTen k)
  else if x.isZero then x
  else divided (x.div (.ofPowerOfTen 308)) (k - 308)
termination_by k

/-- Multiplies by `10 ^ e`, unless the result is too large. -/
def scaled (n : Nat) : Int → Option Binary64
  | .ofNat k =>
    if n = 0 then some .zero
    else if 308 < k then none
    else
      let x := (Binary64.ofNat n).mul (.ofPowerOfTen k)
      if x.isFinite then some x else none
  | .negSucc k => some (divided (.ofNat n) (k + 1))

/-- The number that a literal names, unless it is too large. -/
def number? (l : Literal) : Option JsonNumber :=
  let (n, unread) := absorb 0 l.whole
  if unread = [] ∧ l.fraction = [] ∧ l.exponent = none then
    if !l.negative then some (.whole n)
    else if 0 < n ∧ n ≤ signLimit then some (.whole (-n))
    else some (.float (Binary64.ofNat n).neg)
  else
    let (m, dropped) := absorb n l.fraction
    let places := (unread.length : Int) - (l.fraction.length - dropped.length) + l.exponent.getD 0
    (scaled m places).map (fun x => .float (if l.negative then x.neg else x))

end Literal

end Workflow.Json
