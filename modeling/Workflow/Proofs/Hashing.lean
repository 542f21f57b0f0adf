import Mathlib.Data.List.Forall2
import Workflow.Proofs.Equality
import Workflow.Proofs.ValueEquality

/-! Hashing by value. Equality of values, conditions, groups and rules is symmetric and transitive, and
equal ones are hashed from the same content. The same content comes from equal values only, but for
what is no number: it equals nothing, and its bits are its content. -/

namespace Workflow

/-- What a collection that hashes its items relies on. -/
structure Coherent {α β : Type} (equal : α → α → Bool) (hashed : α → β) : Prop where
  symm : ∀ a b, equal a b = true → equal b a = true
  trans : ∀ a b c, equal a b = true → equal b c = true → equal a c = true
  hashed_eq : ∀ a b, equal a b = true → hashed a = hashed b

theorem equalLists_iff_forall₂ {α : Type} (equal : α → α → Bool) {l m : List α} :
    equalLists equal l m = true ↔ List.Forall₂ (fun a b => equal a b = true) l m := by
  induction l generalizing m with
  | nil => cases m <;> simp [equalLists]
  | cons a r ih => cases m <;> simp [equalLists, ih]

/-- Lists are compared and hashed item by item. -/
theorem Coherent.lists {α β : Type} {equal : α → α → Bool} {hashed : α → β}
    (h : Coherent equal hashed) : Coherent (equalLists equal) (List.map hashed) where
  symm l m hlm := by
    rw [equalLists_iff_forall₂] at hlm ⊢
    induction hlm with
    | nil => exact .nil
    | cons hab _ ih => exact .cons (h.symm _ _ hab) ih
  trans l m n hlm hmn := by
    rw [equalLists_iff_forall₂] at hlm hmn ⊢
    induction hlm generalizing n with
    | nil => exact hmn
    | cons hab _ ih =>
      rcases hmn with _ | ⟨hbc, hrest⟩
      exact .cons (h.trans _ _ _ hab hbc) (ih _ hrest)
  hashed_eq l m hlm := by
    rw [equalLists_iff_forall₂] at hlm
    induction hlm with
    | nil => rfl
    | cons hab _ ih => rw [List.map_cons, List.map_cons, h.hashed_eq _ _ hab, ih]

namespace Value

variable {v w : Value}

theorem Equals.hashed_eq (h : v.Equals w) : v.hashed = w.hashed := by
  cases h with
  | number => rfl
  | zeros hx hy => simp [hashed, hx, hy]
  | boolean => rfl
  | text => rfl

theorem coherent : Coherent equal hashed where
  symm v w h := by
    rw [equal_iff_equals] at h ⊢
    exact h.symm
  trans u v w huv hvw := by
    rw [equal_iff_equals] at huv hvw ⊢
    exact huv.trans hvw
  hashed_eq v w h := (equal_iff_equals.1 h).hashed_eq

/-- Numbers keep what they are hashed from, but for the zeros. -/
theorem hashed_number_eq_iff {x y : Binary64} :
    (number x).hashed = (number y).hashed ↔ x = y ∨ x.isZero = true ∧ y.isZero = true := by
  -- being zero can be told from the content
  have hzero (z : Binary64) : (if z.isZero then Binary64.zero else z).isZero = z.isZero := by
    cases hz : z.isZero with
    | false => simpa using hz
    | true => rfl
  constructor
  · intro h
    have hcontent := number.inj h
    have hsame : x.isZero = y.isZero := by rw [← hzero x, hcontent, hzero y]
    cases hx : x.isZero with
    | false =>
      rw [← hsame, hx] at hcontent
      exact .inl hcontent
    | true => exact .inr ⟨rfl, hsame ▸ hx⟩
  · rintro (rfl | ⟨hx, hy⟩)
    · rfl
    · exact (Equals.zeros hx hy).hashed_eq

theorem hashed_eq_iff : v.hashed = w.hashed ↔
    v.equal w = true ∨ ∃ x, x.isNaN = true ∧ v = number x ∧ w = number x := by
  rw [equal_iff_equals]
  constructor
  · intro h
    cases v with
    | boolean a =>
      obtain rfl : boolean a = w := by cases w <;> simp_all [hashed]
      exact .inl (.boolean a)
    | text s =>
      obtain rfl : text s = w := by cases w <;> simp_all [hashed]
      exact .inl (.text s)
    | number x =>
      cases w with
      | boolean => cases h
      | text => cases h
      | number y =>
        rcases hashed_number_eq_iff.1 h with rfl | ⟨hx, hy⟩
        · cases hnan : x.isNaN with
          | false => exact .inl (.number hnan)
          | true => exact .inr ⟨x, hnan, rfl, rfl⟩
        · exact .inl (.zeros hx hy)
  · rintro (h | ⟨x, -, rfl, rfl⟩)
    · exact h.hashed_eq
    · rfl

end Value

theorem Condition.coherent : Coherent Condition.equal Condition.hashed where
  symm c d h := by
    simp only [Condition.equal, Bool.and_eq_true, decide_eq_true_eq] at h ⊢
    exact ⟨⟨h.1.1.symm, h.1.2.symm⟩, Value.coherent.symm _ _ h.2⟩
  trans b c d hbc hcd := by
    simp only [Condition.equal, Bool.and_eq_true, decide_eq_true_eq] at hbc hcd ⊢
    exact ⟨⟨hbc.1.1.trans hcd.1.1, hbc.1.2.trans hcd.1.2⟩, Value.coherent.trans _ _ _ hbc.2 hcd.2⟩
  hashed_eq c d h := by
    simp only [Condition.equal, Bool.and_eq_true, decide_eq_true_eq] at h
    rw [Condition.hashed, Condition.hashed, h.1.1, h.1.2, Value.coherent.hashed_eq _ _ h.2]

theorem Group.coherent : Coherent Group.equal Group.hashed where
  symm g k h := by
    simp only [Group.equal, Bool.and_eq_true, decide_eq_true_eq] at h ⊢
    exact ⟨h.1.symm, Condition.coherent.lists.symm _ _ h.2⟩
  trans f g k hfg hgk := by
    simp only [Group.equal, Bool.and_eq_true, decide_eq_true_eq] at hfg hgk ⊢
    exact ⟨hfg.1.trans hgk.1, Condition.coherent.lists.trans _ _ _ hfg.2 hgk.2⟩
  hashed_eq g k h := by
    simp only [Group.equal, Bool.and_eq_true, decide_eq_true_eq] at h
    rw [Group.hashed, Group.hashed, h.1, Condition.coherent.lists.hashed_eq _ _ h.2]

/-- Equal rules have one form. -/
theorem Rule.equal_iff {r s : Rule} : r.equal s = true ↔
    (∃ c d, r = single c ∧ s = single d ∧ c.equal d = true) ∨
      ∃ c g k, r = grouped c g ∧ s = grouped c k ∧ equalLists Group.equal g k = true := by
  cases r with
  | single c => cases s <;> simp [Rule.equal]
  | grouped c g =>
    cases s with
    | single => simp [Rule.equal]
    | grouped d k =>
      simp only [Rule.equal, Bool.and_eq_true, decide_eq_true_eq]
      constructor
      · rintro ⟨rfl, hgk⟩
        exact .inr ⟨c, g, k, rfl, rfl, hgk⟩
      · rintro (⟨_, _, hc, -⟩ | ⟨_, _, _, hg, hk, hgk⟩)
        · cases hc
        · cases hg
          cases hk
          exact ⟨rfl, hgk⟩

theorem Rule.coherent : Coherent Rule.equal Rule.hashed where
  symm r s h := by
    rcases Rule.equal_iff.1 h with ⟨c, d, rfl, rfl, hcd⟩ | ⟨c, g, k, rfl, rfl, hgk⟩
    · exact Condition.coherent.symm c d hcd
    · apply Rule.equal_iff.2
      exact .inr ⟨c, k, g, rfl, rfl, Group.coherent.lists.symm g k hgk⟩
  trans q r s hqr hrs := by
    rcases Rule.equal_iff.1 hqr with ⟨b, c, rfl, rfl, hbc⟩ | ⟨c, f, g, rfl, rfl, hfg⟩
    · rcases Rule.equal_iff.1 hrs with ⟨_, d, hc, rfl, hcd⟩ | ⟨_, _, _, hc, -, -⟩
      · cases hc
        exact Condition.coherent.trans b c d hbc hcd
      · cases hc
    · rcases Rule.equal_iff.1 hrs with ⟨_, _, hg, -, -⟩ | ⟨_, _, k, hg, rfl, hgk⟩
      · cases hg
      · cases hg
        apply Rule.equal_iff.2
        exact .inr ⟨c, f, k, rfl, rfl, Group.coherent.lists.trans f g k hfg hgk⟩
  hashed_eq r s h := by
    rcases Rule.equal_iff.1 h with ⟨c, d, rfl, rfl, hcd⟩ | ⟨c, g, k, rfl, rfl, hgk⟩
    · exact congrArg single (Condition.coherent.hashed_eq c d hcd)
    · exact congrArg (grouped c) (Group.coherent.lists.hashed_eq g k hgk)

/-- Values are equal if they are of one type and equal within it, so all but those that are no number
equal themselves. Equality of values, and of what is made of them, goes both ways and through a third,
and comes with equal hashed content. The content of values is equal only where they are, or are no
number and have the same bits. -/
theorem equal_coherent_with_hashed :
    (∀ v w : Value, v.equal w = true ↔ v.equal? w = some true) ∧
    (∀ v w : Value, v.equal w = true ↔ v.Equals w) ∧
    (∀ v : Value, v.equal v = true ↔ ¬ v.IsNaN) ∧
    (∀ v w : Value, v.hashed = w.hashed ↔
      v.equal w = true ∨ ∃ x, x.isNaN = true ∧ v = .number x ∧ w = .number x) ∧
    Coherent Value.equal Value.hashed ∧ Coherent Condition.equal Condition.hashed ∧
    Coherent Group.equal Group.hashed ∧ Coherent Rule.equal Rule.hashed := by
  refine ⟨fun _ _ => Value.equal_iff_equal?, fun _ _ => Value.equal_iff_equals, Value.equal_self_iff,
    fun _ _ => Value.hashed_eq_iff, ?_⟩
  exact ⟨Value.coherent, Condition.coherent, Group.coherent, Rule.coherent⟩

/-- The balance is compared with a zero. -/
def balanceRule (zero : Binary64) : Rule :=
  .grouped .and [⟨.or, [⟨"balance", .greaterThan, .number zero⟩, ⟨"vip", .equal, .boolean true⟩]⟩]

def quietNaN : Binary64 := ⟨0x7FF8000000000000⟩

theorem equal_coherent_with_hashed_of_zeros :
    (balanceRule .zero).equal (balanceRule (.neg .zero)) = true ∧
    (balanceRule .zero).hashed = (balanceRule (.neg .zero)).hashed ∧
    (balanceRule (.neg .zero)).equal (balanceRule .zero) = true ∧
    (Value.number quietNaN).hashed = (Value.number quietNaN).hashed ∧
    ¬ (Value.number quietNaN).equal (.number quietNaN) = true ∧
    (Value.text "0").hashed ≠ (Value.number .zero).hashed := by
  obtain ⟨-, -, hself, hcontent, -, -, -, hrule⟩ := equal_coherent_with_hashed
  have hequal : (balanceRule .zero).equal (balanceRule (.neg .zero)) = true := by decide
  have hnan : quietNaN.isNaN = true := by decide
  refine ⟨hequal, hrule.hashed_eq _ _ hequal, hrule.symm _ _ hequal, ?_, ?_, ?_⟩
  · apply (hcontent _ _).2
    exact .inr ⟨quietNaN, hnan, rfl, rfl⟩
  · intro h
    exact (hself _).1 h ⟨quietNaN, rfl, hnan⟩
  · intro h
    rcases (hcontent _ _).1 h with hsame | ⟨_, _, htext, _⟩
    · cases hsame
    · cases htext

end Workflow
