import Mathlib
import Workflow.Json.Parser
import Workflow.Json.Printer

/-! Strings as text. Every character is written so that it is read back as itself, and the first quote
without an escape before it is the closing one. -/

namespace Workflow.Json.Parser

/-- A control character without a short escape is written by its number. -/
def pieceOf (c : Char) : Piece :=
  if c.toNat < 0x20 ∧ c ∉ ['\x08', '\x0c', '\n', '\r', '\t'] then .code c.toNat else .char c

theorem hexDigit?_hexDigit {n : Nat} (h : n < 16) : hexDigit? (Printer.hexDigit n) = some n := by
  interval_cases n <;> rfl

theorem pieces_number {n : Nat} (h : n < 0x20) (r : List Char) :
    pieces ('\\' :: 'u' :: '0' :: '0' :: Printer.hexDigit (n / 16) :: Printer.hexDigit (n % 16) :: r) =
      (pieces r).map fun x => (.code n :: x.1, x.2) := by
  have hhigh : hexDigit? (Printer.hexDigit (n / 16)) = some (n / 16) := hexDigit?_hexDigit (by omega)
  have hlow : hexDigit? (Printer.hexDigit (n % 16)) = some (n % 16) := hexDigit?_hexDigit (by omega)
  have hzero : hexDigit? '0' = some 0 := rfl
  have hcode : ((0 * 16 + 0) * 16 + n / 16) * 16 + n % 16 = n := by omega
  simp only [pieces, hexCode?, hzero, hhigh, hlow, Option.bind_eq_bind, Option.bind_some,
    Option.pure_def, hcode]
  cases pieces r <;> rfl

theorem pieces_short {e c : Char} (h : unescape? e = some c) (r : List Char) :
    pieces ('\\' :: e :: r) = (pieces r).map fun x => (.char c :: x.1, x.2) := by
  have hu : e ≠ 'u' := by
    rintro rfl
    cases h
  rw [pieces.eq_4 e r fun _ _ _ _ _ hcons => absurd hcons hu, h]
  cases pieces r <;> rfl

theorem pieces_plain {c : Char} (hquote : c ≠ '"') (hslash : c ≠ '\\') (h : ¬ c.toNat < 0x20)
    (r : List Char) : pieces (c :: r) = (pieces r).map fun x => (.char c :: x.1, x.2) := by
  rw [pieces.eq_5 c r hquote (fun _ _ _ _ _ hc => absurd hc hslash) fun _ _ hc => absurd hc hslash,
    if_neg (not_or.2 ⟨hslash, h⟩)]
  cases pieces r <;> rfl

theorem pieces_escape (c : Char) (r : List Char) :
    pieces (Printer.escape c ++ r) = (pieces r).map fun x => (pieceOf c :: x.1, x.2) := by
  by_cases hshort : c ∈ ['"', '\\', '\x08', '\x0c', '\n', '\r', '\t']
  · simp only [List.mem_cons, List.not_mem_nil, or_false] at hshort
    rcases hshort with rfl | rfl | rfl | rfl | rfl | rfl | rfl <;> exact pieces_short rfl r
  · simp only [List.mem_cons, List.not_mem_nil, or_false, not_or] at hshort
    obtain ⟨hquote, hslash, hb, hf, hn, hr, ht⟩ := hshort
    simp only [Printer.escape, hquote, hslash, hb, hf, hn, hr, ht, if_false]
    split
    · rename_i hlow
      rw [pieceOf, if_pos ⟨hlow, by simp [hb, hf, hn, hr, ht]⟩]
      exact pieces_number hlow r
    · rename_i hhigh
      rw [pieceOf, if_neg fun h => hhigh h.1]
      exact pieces_plain hquote hslash hhigh r

theorem pieces_text (cs r : List Char) :
    pieces (cs.flatMap Printer.escape ++ '"' :: r) = some (cs.map pieceOf, r) := by
  induction cs with
  | nil => rfl
  | cons c cs ih =>
    rw [List.flatMap_cons, List.append_assoc, pieces_escape, ih]
    rfl

theorem chars?_code {n : Nat} (h : n < 0xD800) (ps : List Piece) :
    chars? (.code n :: ps) = (chars? ps).map (Char.ofNat n :: ·) := by
  have hhigh : isHigh n = false := by simp [isHigh]; omega
  have hlow : isLow n = false := by simp [isLow]; omega
  match ps with
  | [] | .char _ :: _ | .code _ :: _ => simp [chars?, hhigh, hlow]

theorem chars?_pieceOf (c : Char) (ps : List Piece) :
    chars? (pieceOf c :: ps) = (chars? ps).map (c :: ·) := by
  unfold pieceOf
  split
  · rename_i hc
    rw [chars?_code (by omega), Char.ofNat_toNat]
  · rw [chars?]

theorem chars?_map_pieceOf (cs : List Char) : chars? (cs.map pieceOf) = some cs := by
  induction cs with
  | nil => rfl
  | cons c cs ih =>
    rw [List.map_cons, chars?_pieceOf, ih]
    rfl

/-- A string is read back as itself. -/
theorem text_escape (s : String) (r : List Char) :
    text (s.toList.flatMap Printer.escape ++ '"' :: r) = some (some s, r) := by
  unfold text
  rw [pieces_text]
  simp [chars?_map_pieceOf]

end Workflow.Json.Parser
