import Workflow.Number.Binary64

/-!
Bytes for naturals, texts, flags, numbers and lists of them. A decoder reads from the front of its
input and gives back what follows. Naturals take one byte below 251, else a mark and 2, 4 or 8 bytes
with the least first; a decoder takes any of these forms that is wide enough.

What `fits` is what `encode` writes without loss.
-/

namespace Workflow

abbrev Bytes := List UInt8

structure Codec (α : Type) where
  encode : α → Bytes
  decode : Bytes → Option (α × Bytes)
  fits : α → Prop

namespace Codec

variable {α β : Type}

/-- The `k` lowest bytes of a natural, the least first. -/
def littleEndian : Nat → Nat → Bytes
  | 0, _ => []
  | k + 1, n => UInt8.ofNat (n % 256) :: littleEndian k (n / 256)

def readLittleEndian : Nat → Bytes → Option (Nat × Bytes)
  | 0, bs => some (0, bs)
  | _ + 1, [] => none
  | k + 1, b :: bs => (readLittleEndian k bs).map (fun x => (b.toNat + 256 * x.1, x.2))

/-- The first `n` bytes. -/
def readExactly : Nat → Bytes → Option (Bytes × Bytes)
  | 0, bs => some ([], bs)
  | _ + 1, [] => none
  | n + 1, b :: bs => (readExactly n bs).map (fun x => (b :: x.1, x.2))

/-- The shortest form of a natural below `2 ^ 64`. -/
def encodeNat (n : Nat) : Bytes :=
  if n < 251 then [UInt8.ofNat n]
  else if n < 0x10000 then 251 :: littleEndian 2 n
  else if n < 0x100000000 then 252 :: littleEndian 4 n
  else 253 :: littleEndian 8 n

/-- The number of bytes that follow a mark, in forms of at most `widest` bytes. -/
def width? (widest : Nat) (mark : UInt8) : Option Nat :=
  if mark = 251 then some 2
  else if mark = 252 then some 4
  else if mark = 253 ∧ 8 ≤ widest then some 8
  else none

def decodeNat (widest : Nat) : Bytes → Option (Nat × Bytes)
  | [] => none
  | b :: bs =>
    if b < 251 then some (b.toNat, bs)
    else (width? widest b).bind (fun k => readLittleEndian k bs)

/-- Naturals below `2 ^ 64`. -/
def natural : Codec Nat := ⟨encodeNat, decodeNat 8, (· < wordLimit)⟩

/-- Naturals below `2 ^ 32`. -/
def shortNatural : Codec Nat := ⟨encodeNat, decodeNat 4, (· < 0x100000000)⟩

def flag : Codec Bool where
  encode b := [if b then 1 else 0]
  decode
    | 0 :: bs => some (false, bs)
    | 1 :: bs => some (true, bs)
    | _ => none
  fits _ := True

def number : Codec Binary64 where
  encode x := littleEndian 8 x.bits.toNat
  decode bs := (readLittleEndian 8 bs).map (fun r => (⟨UInt64.ofNat r.1⟩, r.2))
  fits _ := True

def utf8 (s : String) : Bytes := s.toByteArray.data.toList

def ofUtf8? (bs : Bytes) : Option String := String.fromUTF8? ⟨bs.toArray⟩

/-- The length in bytes, then the bytes. -/
def text : Codec String where
  encode s := natural.encode (utf8 s).length ++ utf8 s
  decode bs := do
    let (n, bs) ← natural.decode bs
    let (front, bs) ← readExactly n bs
    return (← ofUtf8? front, bs)
  fits s := natural.fits (utf8 s).length

def encodeAll (c : Codec α) : List α → Bytes
  | [] => []
  | a :: r => c.encode a ++ encodeAll c r

def decodeAll (c : Codec α) : Nat → Bytes → Option (List α × Bytes)
  | 0, bs => some ([], bs)
  | n + 1, bs => do
    let (a, bs) ← c.decode bs
    let (r, bs) ← decodeAll c n bs
    return (a :: r, bs)

/-- The length, then the items. -/
def list (c : Codec α) : Codec (List α) where
  encode l := natural.encode l.length ++ encodeAll c l
  decode bs := do
    let (n, bs) ← natural.decode bs
    decodeAll c n bs
  fits l := natural.fits l.length ∧ ∀ a ∈ l, c.fits a

/-- A flag, then the content if there is one. -/
def option (c : Codec α) : Codec (Option α) where
  encode
    | none => flag.encode false
    | some a => flag.encode true ++ c.encode a
  decode bs := do
    let (given, bs) ← flag.decode bs
    if given then do
      let (a, bs) ← c.decode bs
      return (some a, bs)
    else return (none, bs)
  fits o := ∀ a ∈ o, c.fits a

def both (c : Codec α) (d : Codec β) : Codec (α × β) where
  encode x := c.encode x.1 ++ d.encode x.2
  decode bs := do
    let (a, bs) ← c.decode bs
    let (b, bs) ← d.decode bs
    return ((a, b), bs)
  fits x := c.fits x.1 ∧ d.fits x.2

/-- Another view of the same data. -/
def via (c : Codec α) (view : α → β) (back : β → α) : Codec β where
  encode b := c.encode (back b)
  decode bs := (c.decode bs).map (fun x => (view x.1, x.2))
  fits b := c.fits (back b)

/-- The position in a list of all. -/
def oneOf [DecidableEq α] (all : List α) : Codec α where
  encode a := shortNatural.encode (all.idxOf a)
  decode bs := do
    let (i, bs) ← shortNatural.decode bs
    return (← all[i]?, bs)
  fits a := a ∈ all ∧ shortNatural.fits (all.idxOf a)

/-- The alternative taken, 0 or 1, then its content. -/
def either (c : Codec α) (d : Codec β) : Codec (α ⊕ β) where
  encode
    | .inl a => shortNatural.encode 0 ++ c.encode a
    | .inr b => shortNatural.encode 1 ++ d.encode b
  decode bs := do
    let (i, bs) ← shortNatural.decode bs
    match i with
    | 0 => (c.decode bs).map (fun x => (.inl x.1, x.2))
    | 1 => (d.decode bs).map (fun x => (.inr x.1, x.2))
    | _ => none
  fits
    | .inl a => c.fits a
    | .inr b => d.fits b

end Codec

end Workflow
