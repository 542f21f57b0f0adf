import Mathlib
import Workflow.Number.Binary64

/-! What numbers stand for: zero, the multiples of the smallest distance from it, and two infinities. Ranks
order them, and tell them apart but for the two zeros. -/

namespace Workflow

namespace Binary64

/-- How far from zero a finite number is, in steps of the smallest one. -/
def steps (magnitude : Nat) : Nat :=
  if magnitude / hiddenBit = 0 then magnitude
  else (magnitude % hiddenBit + hiddenBit) * 2 ^ (magnitude / hiddenBit - 1)

/-- Where a fraction is full, the next magnitude has the next exponent and an empty fraction. -/
theorem steps_lt_succ (m : Nat) : steps m < steps (m + 1) := by
  unfold steps hiddenBit
  rcases Nat.lt_or_ge (m % 0x10000000000000 + 1) 0x10000000000000 with hroom | hfull
  · have hdiv : (m + 1) / 0x10000000000000 = m / 0x10000000000000 := by omega
    have hmod : (m + 1) % 0x10000000000000 = m % 0x10000000000000 + 1 := by omega
    rw [hdiv, hmod]
    split
    · omega
    · exact Nat.mul_lt_mul_of_pos_right (by omega) (Nat.two_pow_pos _)
  · have hdiv : (m + 1) / 0x10000000000000 = m / 0x10000000000000 + 1 := by omega
    have hmod : (m + 1) % 0x10000000000000 = 0 := by omega
    rw [hdiv, hmod, if_neg (Nat.succ_ne_zero _), Nat.add_sub_cancel]
    split
    · rename_i hzero
      rw [hzero]
      omega
    · rename_i hne
      have hpow : 2 ^ (m / 0x10000000000000) = 2 * 2 ^ (m / 0x10000000000000 - 1) := by
        rw [← Nat.pow_succ']
        congr 1
        omega
      rw [hpow, ← Nat.mul_assoc]
      exact Nat.mul_lt_mul_of_pos_right (by omega) (Nat.two_pow_pos _)

theorem steps_strictMono : StrictMono steps := strictMono_nat_of_lt_succ steps_lt_succ

theorem significand_mul (x : Binary64) :
    (x.significand * (2 : ℝ) ^ x.exponent : ℝ) = steps x.magnitude * (2 : ℝ) ^ (-1074 : ℤ) := by
  unfold significand exponent steps
  split
  · rfl
  · rename_i hne
    have hexp : ((x.magnitude / hiddenBit : Nat) : ℤ) - 1075 =
        ((x.magnitude / hiddenBit - 1 : Nat) : ℤ) + -1074 := by
      generalize x.magnitude / hiddenBit = e at hne
      omega
    rw [hexp, zpow_add₀ two_ne_zero, zpow_natCast]
    push_cast
    ring

/-- How far from zero a number of this magnitude is. -/
noncomputable def distance (magnitude : Nat) : EReal :=
  if magnitude = infinity then ⊤ else ((steps magnitude * (2 : ℝ) ^ (-1074 : ℤ) : ℝ) : EReal)

theorem distance_zero : distance 0 = 0 := by
  simp [distance, steps, infinity]

theorem distance_lt {m n : Nat} (hn : n ≤ infinity) (h : m < n) : distance m < distance n := by
  unfold distance
  rw [if_neg (by omega : m ≠ infinity)]
  split
  · exact EReal.coe_lt_top _
  · rw [EReal.coe_lt_coe_iff]
    have hsteps : (steps m : ℝ) < steps n := by exact_mod_cast steps_strictMono h
    exact mul_lt_mul_of_pos_right hsteps (zpow_pos zero_lt_two _)

/-- What the bits stand for, if that is a number. -/
noncomputable def value (x : Binary64) : EReal :=
  let distance : EReal :=
    if x.isInfinite then ⊤ else ((x.significand * (2 : ℝ) ^ x.exponent : ℝ) : EReal)
  if x.negative then -distance else distance

theorem value_eq (x : Binary64) :
    x.value = if x.negative then -distance x.magnitude else distance x.magnitude := by
  simp only [value, distance, significand_mul, isInfinite, decide_eq_true_eq]

/-- Signed distances, by rank. -/
noncomputable def ofRank (r : Int) : EReal :=
  if r < 0 then -distance r.natAbs else distance r.natAbs

theorem distance_nonneg {m : Nat} (hm : m ≤ infinity) : 0 ≤ distance m := by
  rw [← distance_zero]
  rcases Nat.eq_zero_or_pos m with rfl | hpos
  · exact le_rfl
  · exact (distance_lt hm hpos).le

theorem ofRank_lt {r s : Int} (hr : r.natAbs ≤ infinity) (hs : s.natAbs ≤ infinity) (h : r < s) :
    ofRank r < ofRank s := by
  unfold ofRank
  split
  · split
    · rw [EReal.neg_lt_neg_iff]
      exact distance_lt hr (by omega)
    · have hneg : -distance r.natAbs < 0 := by
        rw [EReal.neg_lt_comm, neg_zero, ← distance_zero]
        exact distance_lt hr (by omega)
      exact lt_of_lt_of_le hneg (distance_nonneg hs)
  · rw [if_neg (by omega)]
    exact distance_lt hs (by omega)

theorem natAbs_rank (x : Binary64) : x.rank.natAbs = x.magnitude := by
  unfold rank
  split <;> omega

theorem value_eq_ofRank (x : Binary64) : x.value = ofRank x.rank := by
  rw [value_eq, ofRank, natAbs_rank]
  unfold rank
  cases x.negative with
  | false =>
    rw [if_neg (by simp), if_neg (by simp)]
  | true =>
    rcases Nat.eq_zero_or_pos x.magnitude with hzero | hpos
    · simp [hzero, distance_zero]
    · rw [if_pos rfl, if_pos (by simpa using hpos)]

theorem ofRank_strictMonoOn : StrictMonoOn ofRank {r | r.natAbs ≤ infinity} :=
  fun _ hr _ hs h => ofRank_lt hr hs h

section

variable {x y : Binary64}

theorem natAbs_rank_le (h : x.isNaN = false) : x.rank.natAbs ≤ infinity := by
  rw [natAbs_rank]
  simpa [isNaN] using h

variable (hx : x.isNaN = false) (hy : y.isNaN = false)
include hx hy

/-- Ranks order numbers by what they stand for. -/
theorem value_lt_iff : x.value < y.value ↔ x.rank < y.rank := by
  rw [value_eq_ofRank, value_eq_ofRank]
  exact ofRank_strictMonoOn.lt_iff_lt (natAbs_rank_le hx) (natAbs_rank_le hy)

theorem value_eq_iff : x.value = y.value ↔ x.rank = y.rank := by
  rw [value_eq_ofRank, value_eq_ofRank]
  exact ofRank_strictMonoOn.injOn.eq_iff (natAbs_rank_le hx) (natAbs_rank_le hy)

end

theorem not_isNaN_of_isZero {x : Binary64} (h : x.isZero = true) : x.isNaN = false := by
  have hm : x.magnitude = 0 := by simpa [isZero] using h
  simp [isNaN, hm, infinity]

theorem rank_eq_zero_of_isZero {x : Binary64} (h : x.isZero = true) : x.rank = 0 := by
  have hm : x.magnitude = 0 := by simpa [isZero] using h
  rw [← Int.natAbs_eq_zero, natAbs_rank, hm]

end Binary64

end Workflow
