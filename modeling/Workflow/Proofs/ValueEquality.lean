import Workflow.Value
import Workflow.Proofs.NumberValue

/-! When values are equal. Those of one type are if they are the same, except that what is no number
equals nothing, and that the zeros are equal to each other. -/

namespace Workflow

theorem Binary64.isZero_eq_of_rank_eq {x y : Binary64} (h : x.rank = y.rank) :
    x.isZero = y.isZero := by
  have hmagnitude : x.magnitude = y.magnitude := by rw [← natAbs_rank, ← natAbs_rank, h]
  rw [isZero, isZero, hmagnitude]

/-- Away from zero the rank has all the bits. -/
theorem Binary64.eq_of_rank_eq {x y : Binary64} (hx : x.isZero = false) (h : x.rank = y.rank) :
    x = y := by
  have hmagnitude : x.magnitude ≠ 0 := by simpa [isZero] using hx
  have hbits : x.bits.toNat = y.bits.toNat := by
    have hlow := x.bits.toNat_lt
    have hhigh := y.bits.toNat_lt
    unfold rank negative at h
    unfold magnitude signBit at h hmagnitude
    simp only [decide_eq_true_eq] at h
    omega
  cases x
  cases y
  exact congrArg Binary64.mk (UInt64.toNat_inj.1 hbits)

/-- Numbers are equal if they are the same, or both zeros. -/
theorem Binary64.equal_eq_true_iff {x y : Binary64} :
    x.equal y = true ↔
      x.isNaN = false ∧ y.isNaN = false ∧ (x = y ∨ x.isZero = true ∧ y.isZero = true) := by
  simp only [equal, Bool.and_eq_true, Bool.not_eq_true', decide_eq_true_eq, and_assoc]
  refine and_congr_right fun _ => and_congr_right fun _ => ?_
  constructor
  · intro h
    cases hzero : x.isZero with
    | false => exact .inl (eq_of_rank_eq hzero h)
    | true => exact .inr ⟨rfl, isZero_eq_of_rank_eq h ▸ hzero⟩
  · rintro (rfl | ⟨hx, hy⟩)
    · rfl
    · rw [rank_eq_zero_of_isZero hx, rank_eq_zero_of_isZero hy]

namespace Value

/-- Two values of one type are equal: the same value, if it is not one that equals nothing, or two
zeros. -/
inductive Equals : Value → Value → Prop
  | number {x : Binary64} (h : x.isNaN = false) : Equals (number x) (number x)
  | zeros {x y : Binary64} (hx : x.isZero = true) (hy : y.isZero = true) :
      Equals (number x) (number y)
  | boolean (b : Bool) : Equals (boolean b) (boolean b)
  | text (s : String) : Equals (text s) (text s)

variable {u v w : Value}

theorem equals_number_iff {x y : Binary64} :
    (number x).Equals (number y) ↔ x.equal y = true := by
  rw [Binary64.equal_eq_true_iff]
  constructor
  · rintro (h | ⟨hx, hy⟩)
    · exact ⟨h, h, .inl rfl⟩
    · exact ⟨Binary64.not_isNaN_of_isZero hx, Binary64.not_isNaN_of_isZero hy, .inr ⟨hx, hy⟩⟩
  · rintro ⟨hx, -, rfl | ⟨hzero, hzero'⟩⟩
    · exact .number hx
    · exact .zeros hzero hzero'

theorem equal?_eq_some_true_iff : v.equal? w = some true ↔ v.Equals w := by
  constructor
  · intro h
    cases v with
    | number x =>
      cases w with
      | number y => exact equals_number_iff.2 (Option.some.inj h)
      | _ => cases h
    | boolean a =>
      cases w with
      | boolean b =>
        obtain rfl : a = b := by simpa [equal?] using h
        exact .boolean a
      | _ => cases h
    | text s =>
      cases w with
      | text t =>
        obtain rfl : s = t := by simpa [equal?] using h
        exact .text s
      | _ => cases h
  · intro h
    cases h with
    | number hx => exact congrArg some (equals_number_iff.1 (.number hx))
    | zeros hx hy => exact congrArg some (equals_number_iff.1 (.zeros hx hy))
    | boolean b => simp [equal?]
    | text s => simp [equal?]

theorem equal_iff_equal? : v.equal w = true ↔ v.equal? w = some true := by
  rw [equal]
  cases v.equal? w <;> simp

theorem equal_iff_equals : v.equal w = true ↔ v.Equals w := by
  rw [equal_iff_equal?, equal?_eq_some_true_iff]

theorem Equals.symm (h : v.Equals w) : w.Equals v := by
  cases h with
  | number hx => exact .number hx
  | zeros hx hy => exact .zeros hy hx
  | boolean b => exact .boolean b
  | text s => exact .text s

theorem Equals.trans (huv : u.Equals v) (hvw : v.Equals w) : u.Equals w := by
  cases huv with
  | number => exact hvw
  | boolean => exact hvw
  | text => exact hvw
  | zeros hx hy =>
    cases hvw with
    | number => exact .zeros hx hy
    | zeros _ hz => exact .zeros hx hz

end Value

end Workflow
