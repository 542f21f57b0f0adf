import Workflow.Json.Literal

/-!
Reading a JSON text into a tree. The grammar is strict; blanks are space, tab, line feed and
carriage return. At most 127 arrays and objects may be open at one place of a readable tree.
-/

namespace Workflow.Json

namespace Parser

def isBlank (c : Char) : Bool := c = ' ' || c = '\t' || c = '\n' || c = '\r'

def skipBlanks (cs : List Char) : List Char := cs.dropWhile isBlank

def hexDigit? (c : Char) : Option Nat :=
  if '0' ≤ c ∧ c ≤ '9' then some (c.toNat - '0'.toNat)
  else if 'a' ≤ c ∧ c ≤ 'f' then some (c.toNat - 'a'.toNat + 10)
  else if 'A' ≤ c ∧ c ≤ 'F' then some (c.toNat - 'A'.toNat + 10)
  else none

def hexCode? (a b c d : Char) : Option Nat := do
  let a ← hexDigit? a
  let b ← hexDigit? b
  let c ← hexDigit? c
  let d ← hexDigit? d
  return ((a * 16 + b) * 16 + c) * 16 + d

def unescape? : Char → Option Char
  | '"' => some '"'
  | '\\' => some '\\'
  | '/' => some '/'
  | 'b' => some '\x08'
  | 'f' => some '\x0c'
  | 'n' => some '\n'
  | 'r' => some '\r'
  | 't' => some '\t'
  | _ => none

/-- A piece of a string: a character, or the number of an escape. -/
inductive Piece where
  | char (c : Char)
  | code (n : Nat)
deriving DecidableEq

/-- The rest of a string whose opening quote has been read, and what follows its closing quote. -/
def pieces : List Char → Option (List Piece × List Char)
  | [] => none
  | '"' :: r => some ([], r)
  | '\\' :: 'u' :: a :: b :: c :: d :: r => do
    let n ← hexCode? a b c d
    let (ps, r) ← pieces r
    return (.code n :: ps, r)
  | '\\' :: e :: r => do
    let c ← unescape? e
    let (ps, r) ← pieces r
    return (.char c :: ps, r)
  | c :: r =>
    if c = '\\' ∨ c.toNat < 0x20 then none else do
      let (ps, r) ← pieces r
      return (.char c :: ps, r)

def isHigh (n : Nat) : Bool := 0xD800 ≤ n && n < 0xDC00

def isLow (n : Nat) : Bool := 0xDC00 ≤ n && n < 0xE000

/-- The characters that pieces name. Halves of surrogate pairs must stand together. -/
def chars? : List Piece → Option (List Char)
  | [] => some []
  | .char c :: r => (chars? r).map (c :: ·)
  | .code n :: .code m :: r =>
    if isHigh n then
      if isLow m then
        (chars? r).map (Char.ofNat (0x10000 + (n - 0xD800) * 0x400 + (m - 0xDC00)) :: ·)
      else none
    else if isLow n then none
    else (chars? (.code m :: r)).map (Char.ofNat n :: ·)
  | .code n :: r =>
    if isHigh n || isLow n then none else (chars? r).map (Char.ofNat n :: ·)

/-- The rest of a string, and what follows it. The string is missing if it names no text. -/
def text (cs : List Char) : Option (Option String × List Char) := do
  let (ps, r) ← pieces cs
  return ((chars? ps).map String.ofList, r)

/-- An array or object read where `depth` more may be opened. -/
def nested (depth : Nat) (t : Tree) : Tree := if depth = 0 then .unreadable else t

/-- An object all of whose names are readable. -/
def object (ms : List (Option String × Tree)) : Tree :=
  match ms.mapM (fun m => m.1.map (·, m.2)) with
  | some ms => .object ms
  | none => .unreadable

def ofText : Option String → Tree
  | some s => .text s
  | none => .unreadable

def ofNumber : Option JsonNumber → Tree
  | some n => .number n
  | none => .unreadable

mutual

/-- The value at the front of a text, where `depth` more arrays and objects may be opened, and
what follows it. `fuel` bounds the calls. -/
def value : (fuel depth : Nat) → List Char → Option (Tree × List Char)
  | 0, _, _ => none
  | fuel + 1, depth, cs =>
    match skipBlanks cs with
    | 'n' :: 'u' :: 'l' :: 'l' :: r => some (.null, r)
    | 't' :: 'r' :: 'u' :: 'e' :: r => some (.bool true, r)
    | 'f' :: 'a' :: 'l' :: 's' :: 'e' :: r => some (.bool false, r)
    | '"' :: r => do
      let (s, r) ← text r
      return (ofText s, r)
    | '[' :: r =>
      match skipBlanks r with
      | ']' :: r => some (nested depth (.array []), r)
      | r => do
        let (ts, r) ← items fuel (depth - 1) r
        return (nested depth (.array ts), r)
    | '{' :: r =>
      match skipBlanks r with
      | '}' :: r => some (nested depth (.object []), r)
      | r => do
        let (ms, r) ← members fuel (depth - 1) r
        return (nested depth (object ms), r)
    | r => do
      let (l, r) ← Literal.scan r
      return (ofNumber l.number?, r)

/-- The items of an array, of which there is at least one, and its end. -/
def items : (fuel depth : Nat) → List Char → Option (List Tree × List Char)
  | 0, _, _ => none
  | fuel + 1, depth, cs => do
    let (t, r) ← value fuel depth cs
    match skipBlanks r with
    | ',' :: r => do
      let (ts, r) ← items fuel depth r
      return (t :: ts, r)
    | ']' :: r => some ([t], r)
    | _ => none

/-- The members of an object, of which there is at least one, and its end. -/
def members : (fuel depth : Nat) → List Char → Option (List (Option String × Tree) × List Char)
  | 0, _, _ => none
  | fuel + 1, depth, cs =>
    match skipBlanks cs with
    | '"' :: r => do
      let (k, r) ← text r
      match skipBlanks r with
      | ':' :: r => do
        let (t, r) ← value fuel depth r
        match skipBlanks r with
        | ',' :: r => do
          let (ms, r) ← members fuel depth r
          return ((k, t) :: ms, r)
        | '}' :: r => some ([(k, t)], r)
        | _ => none
      | _ => none
    | _ => none

end

/-- How many arrays and objects may be open at one place. -/
def maxDepth : Nat := 127

end Parser

namespace Tree

/-- The tree that a text spells. -/
def parse? (s : String) : Option Tree :=
  match Parser.value (2 * s.toList.length + 2) Parser.maxDepth s.toList with
  | some (t, r) => if Parser.skipBlanks r = [] then some t else none
  | none => none

end Tree

/-- The value that a text names. -/
def parse? (s : String) : Option Json := (Tree.parse? s).bind Tree.value?

end Workflow.Json
