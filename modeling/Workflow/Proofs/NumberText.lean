import Mathlib
import Workflow.Json.Printer
import Workflow.Proofs.Literal

/-! Numbers as literals. The text of a number obeys the grammar of literals whatever the number is, so
it is scanned to its end; a whole number of 64 bits is then read back as itself. -/

namespace Workflow

namespace Binary64

variable {x : Binary64}

theorem significand_pos (h : x.isZero = false) : 0 < x.significand := by
  have hm : x.magnitude ≠ 0 := by simpa [isZero] using h
  unfold significand hiddenBit
  split <;> omega

theorem digits_pos_of_readsBack (h : x.isZero = false) {d : Decimal} (hd : x.readsBack d = true) :
    0 < d.digits := by
  have hsig := significand_pos h
  -- zero lies below the interval, whose lower end is not zero
  have hbelow (low : Nat) (hlow : 0 < low) :
      Decimal.compareScaled 0 d.exponent low (x.exponent - 2) = .lt := by
    unfold Decimal.compareScaled powerOfTwo powerOfTen
    simp only [Nat.zero_mul, Nat.pow_eq]
    rw [Nat.compare_eq_lt]
    positivity
  rw [Nat.pos_iff_ne_zero]
  intro hzero
  have hlow : 0 < if x.narrowBelow then 4 * x.significand - 1 else 4 * x.significand - 2 := by
    split <;> omega
  simp [readsBack, hzero, hbelow _ hlow] at hd

theorem readsBack_of_onGrid {tie : Tie} {p : Int} {d : Decimal} (h : x.onGrid tie p = some d) :
    x.readsBack d = true := by
  simp only [onGrid] at h
  split at h
  · cases h
  · rename_i hc _
    cases h
    exact hc
  · rename_i _ hc
    cases h
    exact hc
  · rename_i hlow hhigh
    split at h
    · cases h
      exact hhigh
    · cases h
      exact hlow
    · cases h
      split
      · exact hlow
      · exact hhigh

theorem exactDigits_pos (h : x.isZero = false) : 0 < x.exactDigits := by
  have hsig := significand_pos h
  unfold exactDigits powerOfTwo powerOfFive
  simp only [Nat.pow_eq]
  positivity

theorem trim_digits_pos (n : Nat) {d : Decimal} (h : 0 < d.digits) : 0 < (d.trim n).digits := by
  induction n generalizing d with
  | zero => exact h
  | succ n ih =>
    unfold Decimal.trim
    split
    · refine ih ?_
      show 0 < d.digits / 10
      omega
    · exact h

theorem shortest_digits_pos (tie : Tie) (h : x.isZero = false) : 0 < (x.shortest tie).digits := by
  unfold shortest
  refine trim_digits_pos 800 ?_
  cases hfound : (List.range 17).findSome? fun n => x.onGrid tie (x.decimalScale - (n + 1 : Nat)) with
  | none => exact exactDigits_pos h
  | some d =>
    obtain ⟨n, -, hn⟩ := List.exists_of_findSome?_eq_some hfound
    exact digits_pos_of_readsBack h (readsBack_of_onGrid hn)

end Binary64

namespace Json

open Literal

/-- A list of digits that does not begin with zero. -/
theorem leading_of_head? {ds : List Nat} (h : ds.head? ≠ some 0) : ∀ r, ds = 0 :: r → r = [] := by
  rintro r rfl
  exact absurd rfl h

section

variable {ds : List Nat} (hten : ∀ a ∈ ds, a < 10)
include hten

theorem grammatical_below_one (n : Nat) :
    Grammatical ⟨false, [0], List.replicate n 0 ++ ds, none⟩ where
  whole_digits := by simp
  fraction_digits := by
    simp only [List.mem_append, List.mem_replicate]
    rintro a (⟨-, rfl⟩ | ha)
    · decide
    · exact hten a ha
  whole_ne_nil := nofun
  leading r hr := (List.cons.inj hr).2.symm

theorem grammatical_scientific {a : Nat} {r : List Nat} (h : ds = a :: r) (e : Int) :
    Grammatical ⟨false, [a], r, some e⟩ where
  whole_digits := by simpa using hten a (h ▸ List.mem_cons_self)
  fraction_digits b hb := hten b (h ▸ List.mem_cons_of_mem a hb)
  whole_ne_nil := nofun
  leading s hs := (List.cons.inj hs).2.symm

variable (hne : ds ≠ []) (hhead : ds.head? ≠ some 0)
include hne hhead

theorem grammatical_whole (n : Nat) :
    Grammatical ⟨false, ds ++ List.replicate n 0, [0], none⟩ where
  whole_digits := by
    simp only [List.mem_append, List.mem_replicate]
    rintro a (ha | ⟨-, rfl⟩)
    · exact hten a ha
    · decide
  fraction_digits := by simp
  whole_ne_nil := by simp [hne]
  leading := leading_of_head? (by rwa [List.head?_append_of_ne_nil _ hne])

theorem grammatical_mixed {k : Nat} (hk : k ≠ 0) :
    Grammatical ⟨false, ds.take k, ds.drop k, none⟩ where
  whole_digits a ha := hten a (List.mem_of_mem_take ha)
  fraction_digits a ha := hten a (List.mem_of_mem_drop ha)
  whole_ne_nil := by simp [hk, hne]
  leading := leading_of_head? (by rwa [List.head?_take, if_neg hk])

end

/-- A decimal that is not zero is laid out as a literal without a sign. -/
theorem exists_literal_unsigned {d : Decimal} (hd : 0 < d.digits) :
    ∃ l : Literal, l.Grammatical ∧ l.negative = false ∧ Printer.layout.unsigned d = l.print := by
  have hten : ∀ a ∈ decimalDigits d.digits, a < 10 := fun _ => lt_ten_of_mem_decimalDigits
  have hne := decimalDigits_ne_nil d.digits
  have hhead := head?_decimalDigits_ne_zero hd
  unfold Layout.unsigned
  rw [← printDigits_decimalDigits]
  simp only [printDigits, List.length_map]
  rw [← printDigits]
  generalize decimalDigits d.digits = ds at hten hne hhead
  have hlen : 0 < ds.length := List.length_pos_iff.2 hne
  split
  · split
    · refine ⟨_, grammatical_below_one hten (-(ds.length + d.exponent)).toNat, rfl, ?_⟩
      simp [Literal.print, printFraction, hne, printDigits, printExponent]
    · split
      · refine ⟨_, grammatical_whole hten hne hhead d.exponent.toNat, rfl, ?_⟩
        simp [Literal.print, printFraction, printDigits, printExponent]
        rfl
      · have hpos : (ds.length + d.exponent).toNat ≠ 0 := by omega
        have hshort : (ds.length + d.exponent).toNat < ds.length := by omega
        refine ⟨_, grammatical_mixed hten hne hhead hpos, rfl, ?_⟩
        simp [Literal.print, printFraction, hshort, printDigits, printExponent]
  · cases ds with
    | nil => exact absurd rfl hne
    | cons a r =>
      cases r with
      | nil => exact ⟨_, grammatical_scientific hten rfl _, rfl, rfl⟩
      | cons b r => exact ⟨_, grammatical_scientific hten rfl _, rfl, rfl⟩

theorem exists_literal_finite (x : Binary64) :
    ∃ l : Literal, l.Grammatical ∧ Printer.layout.finite x = l.print := by
  have hbody : ∃ l : Literal, l.Grammatical ∧ l.negative = false ∧
      (if x.isZero then '0' :: Printer.layout.whole
        else Printer.layout.unsigned (x.shortest Printer.layout.tie)) = l.print := by
    cases hz : x.isZero with
    | true => exact ⟨⟨false, [0], [0], none⟩, ⟨by simp, by simp, by simp, by simp⟩, rfl, rfl⟩
    | false => exact exists_literal_unsigned (x.shortest_digits_pos _ hz)
  obtain ⟨l, hl, hpositive, hprint⟩ := hbody
  unfold Layout.finite
  rw [hprint]
  cases x.negative with
  | false => exact ⟨l, hl, rfl⟩
  | true =>
    refine ⟨{ l with negative := true },
      ⟨hl.whole_digits, hl.fraction_digits, hl.whole_ne_nil, hl.leading⟩, ?_⟩
    simp [Literal.print, hpositive]

def wholeLiteral (n : Int) : Literal := ⟨n < 0, decimalDigits n.natAbs, [], none⟩

theorem print_wholeLiteral (n : Int) : (wholeLiteral n).print = Printer.number (.whole n) := by
  simp [wholeLiteral, Literal.print, printDigits_decimalDigits, printFraction, printExponent,
    Printer.number]

theorem wholeLiteral_grammatical (n : Int) : (wholeLiteral n).Grammatical where
  whole_digits := fun _ => lt_ten_of_mem_decimalDigits
  fraction_digits := nofun
  whole_ne_nil := decimalDigits_ne_nil _
  leading := by
    intro r hr
    rcases Nat.eq_zero_or_pos n.natAbs with hzero | hpos
    · rw [wholeLiteral, hzero, decimalDigits_of_lt (by decide)] at hr
      exact (List.cons.inj hr).2.symm
    · exact leading_of_head? (head?_decimalDigits_ne_zero hpos) r hr

theorem le_foldl_digits (ds : List Nat) (n : Nat) : n ≤ ds.foldl (fun n d => n * 10 + d) n := by
  induction ds generalizing n with
  | nil => exact Nat.le_refl n
  | cons d r ih =>
    have := ih (n * 10 + d)
    simp only [List.foldl_cons]
    omega

theorem absorb_of_lt {ds : List Nat} {n : Nat}
    (h : ds.foldl (fun n d => n * 10 + d) n < wordLimit) :
    absorb n ds = (ds.foldl (fun n d => n * 10 + d) n, []) := by
  induction ds generalizing n with
  | nil => rfl
  | cons d r ih =>
    have hle := le_foldl_digits r (n * 10 + d)
    simp only [List.foldl_cons] at h ⊢
    rw [absorb, if_pos (by omega), ih h]

theorem number?_wholeLiteral {n : Int} (h : (JsonNumber.whole n).Spelled) :
    (wholeLiteral n).number? = some (.whole n) := by
  obtain ⟨hlow, hhigh⟩ := h
  have hvalue := ofDigits_decimalDigits n.natAbs
  have hread : absorb 0 (decimalDigits n.natAbs) = (n.natAbs, []) := by
    rw [absorb_of_lt, ← ofDigits, hvalue]
    rw [← ofDigits, hvalue]
    unfold signLimit wordLimit at *
    omega
  unfold Literal.number? wholeLiteral
  simp only [hread]
  by_cases hneg : n < 0
  · have hpos : 0 < n.natAbs ∧ n.natAbs ≤ signLimit := by omega
    simp [hneg, hpos, abs_of_neg hneg]
  · simp [hneg, abs_of_nonneg (Int.not_lt.1 hneg)]

end Json

/-- What the text of a number names. -/
def JsonNumber.reread? (n : JsonNumber) : Option JsonNumber :=
  (Json.Literal.scan (Json.Printer.number n)).bind fun x => x.1.number?

namespace JsonNumber

open Json Literal

theorem exists_literal (n : JsonNumber) :
    ∃ l : Literal, l.Grammatical ∧ Printer.number n = l.print := by
  cases n with
  | whole n => exact ⟨wholeLiteral n, wholeLiteral_grammatical n, (print_wholeLiteral n).symm⟩
  | float x => exact exists_literal_finite x

/-- The text of a number is one literal, whatever follows it. -/
theorem scan_number (n : JsonNumber) {rest : List Char} (h : EndsLiteral rest) :
    ∃ l, scan (Printer.number n ++ rest) = some (l, rest) ∧ l.number? = n.reread? := by
  obtain ⟨l, hl, hprint⟩ := n.exists_literal
  have halone := scan_print hl endsLiteral_nil
  rw [List.append_nil] at halone
  refine ⟨l, by rw [hprint, scan_print hl h], ?_⟩
  rw [reread?, hprint, halone]
  rfl

theorem reread?_whole {n : Int} (h : (whole n).Spelled) : (whole n).reread? = some (whole n) := by
  have halone := scan_print (wholeLiteral_grammatical n) endsLiteral_nil
  rw [List.append_nil, print_wholeLiteral] at halone
  rw [reread?, halone]
  exact number?_wholeLiteral h

end JsonNumber

end Workflow
