import Workflow.Json.Basic
import Workflow.Number.Layout

/-!
Writing JSON without blanks. Members are written in the order in which the value has them.
-/

namespace Workflow.Json

namespace Printer

/-- Finite numbers are written positionally from `1e-5` to below `1e16`, else with an exponent, and
always so that they do not look whole. -/
def layout : Layout := ⟨fun k => -5 < k ∧ k ≤ 16, ['.', '0'], .toEven⟩

def number : JsonNumber → List Char
  | .whole n => (if n < 0 then ['-'] else []) ++ Layout.digitsOf n.natAbs
  | .float x => layout.finite x

def hexDigit (n : Nat) : Char := if n < 10 then Char.ofNat (48 + n) else Char.ofNat (87 + n)

def escape (c : Char) : List Char :=
  if c = '"' then ['\\', '"']
  else if c = '\\' then ['\\', '\\']
  else if c = '\x08' then ['\\', 'b']
  else if c = '\x0c' then ['\\', 'f']
  else if c = '\n' then ['\\', 'n']
  else if c = '\r' then ['\\', 'r']
  else if c = '\t' then ['\\', 't']
  else if c.toNat < 0x20 then
    ['\\', 'u', '0', '0', hexDigit (c.toNat / 16), hexDigit (c.toNat % 16)]
  else [c]

def text (s : String) : List Char := '"' :: s.toList.flatMap escape ++ ['"']

end Printer

open Printer

mutual

def print : Json → List Char
  | null => ['n', 'u', 'l', 'l']
  | bool true => ['t', 'r', 'u', 'e']
  | bool false => ['f', 'a', 'l', 's', 'e']
  | number n => Printer.number n
  | text s => Printer.text s
  | array items => '[' :: printItems items ++ [']']
  | object members => '{' :: printMembers members ++ ['}']

/-- Items, separated by commas. -/
def printItems : List Json → List Char
  | [] => []
  | [v] => print v
  | v :: r => print v ++ ',' :: printItems r

/-- Members, separated by commas. -/
def printMembers : List (String × Json) → List Char
  | [] => []
  | [(k, v)] => Printer.text k ++ ':' :: print v
  | (k, v) :: r => Printer.text k ++ ':' :: print v ++ ',' :: printMembers r

end

/-- The text of a value. -/
def render (v : Json) : String := String.ofList v.print

end Workflow.Json
