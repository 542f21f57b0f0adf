import Workflow.Json.Basic
import Workflow.Number.Layout

/-!
The values that fields hold and conditions compare with. Values of different types are never
equal and have no order.
-/

namespace Workflow

inductive Value where
  | number (x : Binary64)
  | boolean (b : Bool)
  | text (s : String)
deriving DecidableEq, Inhabited

namespace Value

def typeName : Value → String
  | number _ => "number"
  | boolean _ => "boolean"
  | text _ => "string"

/-- Equality of two values of one type, numbers by value. -/
def equal? : Value → Value → Option Bool
  | number x, number y => some (x.equal y)
  | boolean a, boolean b => some (a = b)
  | text s, text t => some (s = t)
  | _, _ => none

/-- Equality; values of different types differ. -/
def equal (v w : Value) : Bool := (v.equal? w).getD false

/-- The order of two numbers, or of two texts if texts have one, by code points. -/
def compare? (orderTexts : Bool) : Value → Value → Option Ordering
  | number x, number y => x.compare? y
  | text s, text t => if orderTexts then some (compare s t) else none
  | _, _ => none

/-- What a hash of the value is made from: the value itself, with one zero for both. -/
def hashed : Value → Value
  | number x => number (if x.isZero then .zero else x)
  | v => v

def ofJson? : Json → Option Value
  | .number n => some (number n.toBinary64)
  | .bool b => some (boolean b)
  | .text s => some (text s)
  | _ => none

/-- Numbers that JSON lacks become null. -/
def toJson : Value → Json
  | number x => .ofBinary64 x
  | boolean b => .bool b
  | text s => .text s

/-- Numbers are shown without an exponent, and whole ones without a point. -/
def layout : Layout := ⟨fun _ => true, [], .upward⟩

def showNumber (x : Binary64) : List Char :=
  if x.isNaN then ['N', 'a', 'N']
  else if x.isInfinite then (if x.negative then ['-', 'i', 'n', 'f'] else ['i', 'n', 'f'])
  else if x.isZero then ['0']
  else layout.finite x

/-- Texts are shown between quotes, without escapes. -/
def print : Value → List Char
  | number x => showNumber x
  | boolean true => ['t', 'r', 'u', 'e']
  | boolean false => ['f', 'a', 'l', 's', 'e']
  | text s => '"' :: s.toList ++ ['"']

def display (v : Value) : String := String.ofList v.print

end Value

end Workflow
