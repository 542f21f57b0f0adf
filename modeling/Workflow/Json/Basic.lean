import Workflow.Keyed
import Workflow.Number.Binary64

/-!
JSON values, and the trees that JSON texts spell. A value has its members in ascending order of
name and no name twice. A tree keeps what the text says: the order of members, repeated names, and
the places where the text is well formed but names no value.
-/

namespace Workflow

/-- Whole numbers that fit 64 bits, with a sign or without, stay whole; all others are rounded. -/
inductive JsonNumber where
  | whole (n : Int)
  | float (x : Binary64)
deriving DecidableEq, Inhabited

namespace JsonNumber

def toBinary64 : JsonNumber → Binary64
  | whole n => Binary64.ofInt n
  | float x => x

/-- The numbers that a text can spell. -/
def Spelled : JsonNumber → Prop
  | whole n => -(signLimit : Int) ≤ n ∧ n < (wordLimit : Int)
  | float x => x.isFinite

end JsonNumber

inductive Json where
  | null
  | bool (b : Bool)
  | number (n : JsonNumber)
  | text (s : String)
  | array (items : List Json)
  | object (members : List (String × Json))
deriving Inhabited

namespace Json

/-- JSON has no numbers beyond the finite ones. -/
def ofBinary64 (x : Binary64) : Json := if x.isFinite then .number (.float x) else .null

def ofOption (f : α → Json) : Option α → Json
  | none => .null
  | some a => f a

def ofList (f : α → Json) (l : List α) : Json := .array (l.map f)

inductive Tree where
  | null
  | bool (b : Bool)
  | number (n : JsonNumber)
  | text (s : String)
  | array (items : List Tree)
  | object (members : List (String × Tree))
  /-- Well formed, but without a value: a number too large, half of a surrogate pair, an object
  with such a name, or arrays and objects nested too deep. -/
  | unreadable
deriving Inhabited

namespace Tree

mutual

/-- The value that a tree names: members are put in order, and of members with one name the last
counts. A tree with an unreadable part names none. -/
def value? : Tree → Option Json
  | null => some .null
  | bool b => some (.bool b)
  | number n => some (.number n)
  | text s => some (.text s)
  | array items => (values? items).map .array
  | object members => (memberValues? members).map (fun ms => .object (Entries.sort ms))
  | unreadable => none

def values? : List Tree → Option (List Json)
  | [] => some []
  | t :: r => match value? t, values? r with
    | some v, some vs => some (v :: vs)
    | _, _ => none

def memberValues? : List (String × Tree) → Option (List (String × Json))
  | [] => some []
  | (k, t) :: r => match value? t, memberValues? r with
    | some v, some vs => some ((k, v) :: vs)
    | _, _ => none

end

/-- No part of the tree is without a value. -/
def readable (t : Tree) : Bool := t.value?.isSome

end Tree

end Json

end Workflow
