import Mathlib.Data.String.Basic
import Mathlib.Order.Compare
import Workflow.Decision
import Workflow.Proofs.NumberValue

/-! Comparing values. Numbers are ordered by what they stand for, texts by their characters. Main statement:
each operator is the relation of that order which its name says, and values without an order stand in none
of the four relations that ask for one. -/

namespace Workflow

namespace Value

/-- Two numbers are orderable unless one is no number, two texts if texts have an order. -/
inductive Orderable (order : TextOrder) : Value → Value → Prop
  | numbers {x y : Binary64} (hx : x.isNaN = false) (hy : y.isNaN = false) :
      Orderable order (.number x) (.number y)
  | texts (s t : String) (h : order = .lexicographic) : Orderable order (.text s) (.text t)

variable {v w : Value}

theorem exists_equal?_of_typeName_eq (h : v.typeName = w.typeName) : ∃ b, v.equal? w = some b := by
  cases v <;> cases w <;> simp_all [typeName, equal?]

theorem equal?_of_typeName_ne (h : v.typeName ≠ w.typeName) : v.equal? w = none := by
  cases v <;> cases w <;> simp_all [typeName, equal?]

theorem compare?_of_typeName_ne (h : v.typeName ≠ w.typeName) (orderTexts : Bool) :
    v.compare? orderTexts w = none := by
  cases v <;> cases w <;> simp_all [typeName, compare?]

theorem compare?_of_not_texts (h : ¬ ∃ s t, v = .text s ∧ w = .text t) (p q : Bool) :
    v.compare? p w = v.compare? q w := by
  cases v <;> cases w <;> simp_all [compare?]

/-- Only orderable values have an order. -/
theorem compare?_eq_none_of_not_orderable {order : TextOrder} (h : ¬ v.Orderable order w) :
    v.compare? (order = .lexicographic) w = none := by
  cases v with
  | boolean b => cases w <;> rfl
  | number x =>
    cases w with
    | number y =>
      have hnan : (x.isNaN || y.isNaN) = true := by
        by_contra hno
        rw [Bool.not_eq_true, Bool.or_eq_false_iff] at hno
        exact h (.numbers hno.1 hno.2)
      simp [compare?, Binary64.compare?, hnan]
    | boolean b => rfl
    | text t => rfl
  | text s =>
    cases w with
    | text t =>
      have hreject : order ≠ .lexicographic := fun ho => h (.texts s t ho)
      simp [compare?, hreject]
    | boolean b => rfl
    | number y => rfl

end Value

namespace Comparison

variable {order : TextOrder}

theorem holds_of_isRelational {op : Comparison} (h : op.isRelational = true) (v w : Value) :
    op.holds order (some v) w = (v.compare? (order = .lexicographic) w).any op.admits := by
  cases op with
  | equal => cases h
  | notEqual => cases h
  | _ => rfl

theorem holds_equal (v w : Value) : equal.holds order (some v) w = v.equal w := by
  show decide (v.equal? w = some true) = (v.equal? w).getD false
  cases v.equal? w with
  | none => rfl
  | some b => cases b <;> rfl

theorem holds_notEqual (v w : Value) :
    notEqual.holds order (some v) w = (v.equal? w).any (!·) := by
  show decide (v.equal? w = some false) = (v.equal? w).any (!·)
  cases v.equal? w with
  | none => rfl
  | some b => cases b <;> rfl

theorem holds_of_typeName_ne {v w : Value} (h : v.typeName ≠ w.typeName) (op : Comparison) :
    op.holds order (some v) w = false := by
  have hequal := Value.equal?_of_typeName_ne h
  have hcompare := Value.compare?_of_typeName_ne h (order = .lexicographic)
  cases op with
  | equal => rw [holds_equal, Value.equal, hequal, Option.getD_none]
  | notEqual => rw [holds_notEqual, hequal, Option.any_none]
  | _ => rw [holds_of_isRelational rfl, hcompare, Option.any_none]

theorem holds_notEqual_of_typeName_eq {v w : Value} (h : v.typeName = w.typeName) :
    notEqual.holds order (some v) w = !equal.holds order (some v) w := by
  obtain ⟨b, hb⟩ := Value.exists_equal?_of_typeName_eq h
  rw [holds_notEqual, holds_equal, Value.equal, hb, Option.any_some, Option.getD_some]

/-- Texts have an order or not; nothing else depends on that. -/
theorem holds_textOrder {op : Comparison} {v w : Value}
    (h : op.isRelational = false ∨ ¬ ∃ s t, v = .text s ∧ w = .text t) (p q : TextOrder) :
    op.holds p (some v) w = op.holds q (some v) w := by
  cases op with
  | equal => rw [holds_equal, holds_equal]
  | notEqual => rw [holds_notEqual, holds_notEqual]
  | _ =>
    have htexts := h.resolve_left (by decide)
    rw [holds_of_isRelational rfl, holds_of_isRelational rfl, Value.compare?_of_not_texts htexts]

theorem not_holds_of_not_orderable {v w : Value} (h : ¬ v.Orderable order w) {op : Comparison}
    (hop : op.isRelational = true) : op.holds order (some v) w = false := by
  rw [holds_of_isRelational hop, Value.compare?_eq_none_of_not_orderable h, Option.any_none]

theorem orderable_of_holds {v w : Value} {op : Comparison} (hop : op.isRelational = true)
    (h : op.holds order (some v) w = true) : v.Orderable order w := by
  by_contra hno
  rw [not_holds_of_not_orderable hno hop] at h
  cases h

/-- Every operator asks the same about two numbers: how their ranks compare. -/
theorem holds_numbers {x y : Binary64} (hx : x.isNaN = false) (hy : y.isNaN = false)
    (op : Comparison) :
    op.holds order (some (.number x)) (.number y) = op.admits (compare x.rank y.rank) := by
  have hcompare : (Value.number x).compare? (order = .lexicographic) (.number y) =
      some (compare x.rank y.rank) := by
    simp [Value.compare?, Binary64.compare?, hx, hy]
  cases op with
  | equal => simp [holds_equal, Value.equal, Value.equal?, Binary64.equal, hx, hy, admits]
  | notEqual => simp [holds_notEqual, Value.equal?, Binary64.equal, hx, hy, admits]
  | _ => rw [holds_of_isRelational rfl, hcompare, Option.any_some]

theorem holds_texts (s t : String) (op : Comparison) :
    op.holds .lexicographic (some (.text s)) (.text t) = op.admits (compare s t) := by
  cases op with
  | equal => simp [holds_equal, Value.equal, Value.equal?, admits]
  | notEqual => simp [holds_notEqual, Value.equal?, admits]
  | _ => rw [holds_of_isRelational rfl]; rfl

/-- All that is asked about two orderable values, either way round, is settled by one outcome. -/
theorem exists_outcome {v w : Value} (h : v.Orderable order w) :
    ∃ o : Ordering, ∀ op : Comparison, op.holds order (some v) w = op.admits o ∧
      op.holds order (some w) v = op.admits o.swap := by
  cases h with
  | @numbers x y hx hy =>
    refine ⟨compare x.rank y.rank, fun op => ⟨holds_numbers hx hy op, ?_⟩⟩
    rw [← Std.OrientedOrd.eq_swap]
    exact holds_numbers hy hx op
  | texts s t ho =>
    subst ho
    refine ⟨compare s t, fun op => ⟨holds_texts s t op, ?_⟩⟩
    rw [← Std.OrientedOrd.eq_swap]
    exact holds_texts t s op

/-- The operator that two values stand in if they compare so. -/
def ofOrdering : Ordering → Comparison
  | .lt => lessThan
  | .eq => equal
  | .gt => greaterThan

theorem existsUnique_admits (o : Ordering) :
    ∃! op, op ∈ [lessThan, equal, greaterThan] ∧ op.admits o = true := by
  refine ⟨ofOrdering o, by cases o <;> decide, ?_⟩
  rintro op ⟨hop, h⟩
  simp only [List.mem_cons, List.not_mem_nil, or_false] at hop
  rcases hop with rfl | rfl | rfl
  all_goals
    simp only [admits, decide_eq_true_eq] at h
    rw [h, ofOrdering]

theorem admits_trans {α : Type} [Ord α] [Std.TransOrd α] {op : Comparison}
    (hop : op ∈ [lessThan, lessThanOrEqual]) {a b c : α} (hab : op.admits (compare a b) = true)
    (hbc : op.admits (compare b c) = true) : op.admits (compare a c) = true := by
  simp only [List.mem_cons, List.not_mem_nil, or_false] at hop
  rcases hop with rfl | rfl
  · simp only [admits, decide_eq_true_eq] at hab hbc ⊢
    exact Std.TransCmp.lt_trans hab hbc
  · simp only [admits, decide_eq_true_eq, ← Ordering.isLE_iff_ne_gt] at hab hbc ⊢
    exact Std.TransCmp.isLE_trans hab hbc

theorem holds_trans {op : Comparison} (hop : op ∈ [lessThan, lessThanOrEqual]) {u v w : Value}
    (huv : op.holds order (some u) v = true) (hvw : op.holds order (some v) w = true) :
    op.holds order (some u) w = true := by
  have hrelational : op.isRelational = true := by
    simp only [List.mem_cons, List.not_mem_nil, or_false] at hop
    rcases hop with rfl | rfl <;> rfl
  have hfirst := orderable_of_holds hrelational huv
  have hsecond := orderable_of_holds hrelational hvw
  cases hfirst with
  | numbers hx hy =>
    cases hsecond with
    | numbers _ hz =>
      rw [holds_numbers hx hy] at huv
      rw [holds_numbers hy hz] at hvw
      rw [holds_numbers hx hz]
      exact admits_trans hop huv hvw
  | texts s t ho =>
    cases hsecond with
    | texts _ r _ =>
      subst ho
      rw [holds_texts] at huv hvw ⊢
      exact admits_trans hop huv hvw

theorem holds_equal_numbers_iff (x y : Binary64) :
    equal.holds order (some (.number x)) (.number y) = true ↔
      x.isNaN = false ∧ y.isNaN = false ∧ x.value = y.value := by
  rw [holds_equal, Value.equal, Value.equal?, Option.getD_some, Binary64.equal]
  simp only [Bool.and_eq_true, Bool.not_eq_true', decide_eq_true_eq, and_assoc]
  exact and_congr_right fun hx => and_congr_right fun hy => (Binary64.value_eq_iff hx hy).symm

theorem holds_lessThan_numbers_iff (x y : Binary64) :
    lessThan.holds order (some (.number x)) (.number y) = true ↔
      x.isNaN = false ∧ y.isNaN = false ∧ x.value < y.value := by
  constructor
  · intro h
    cases orderable_of_holds rfl h with
    | numbers hx hy =>
      rw [holds_numbers hx hy, admits, decide_eq_true_eq, compare_lt_iff_lt] at h
      exact ⟨hx, hy, (Binary64.value_lt_iff hx hy).2 h⟩
  · rintro ⟨hx, hy, h⟩
    rw [holds_numbers hx hy, admits, decide_eq_true_eq, compare_lt_iff_lt]
    exact (Binary64.value_lt_iff hx hy).1 h

theorem holds_equal_texts_iff (s t : String) :
    equal.holds order (some (.text s)) (.text t) = true ↔ s = t := by
  rw [holds_equal, Value.equal, Value.equal?, Option.getD_some, decide_eq_true_eq]

theorem holds_lessThan_texts_iff (s t : String) :
    lessThan.holds order (some (.text s)) (.text t) = true ↔
      order = .lexicographic ∧ s.toList < t.toList := by
  constructor
  · intro h
    cases orderable_of_holds rfl h with
    | texts _ _ ho =>
      subst ho
      rw [holds_texts, admits, decide_eq_true_eq, compare_lt_iff_lt] at h
      exact ⟨rfl, h⟩
  · rintro ⟨rfl, h⟩
    rw [holds_texts, admits, decide_eq_true_eq, compare_lt_iff_lt]
    exact h

/-- Values of different types stand in no relation, and neither does a field without a value. Of two
orderable values either one is less or they are equal, and the other operators follow from that; values
that are not orderable are related by equality at most. Numbers are compared by what they stand for, texts
by their characters, and only the comparison of two texts depends on whether texts have an order. -/
theorem holds_laws (order : TextOrder) :
    (∀ (op : Comparison) w, op.holds order none w = false) ∧
    (∀ (op : Comparison) v w, v.typeName ≠ w.typeName → op.holds order (some v) w = false) ∧
    (∀ v w, v.typeName = w.typeName →
      notEqual.holds order (some v) w = !equal.holds order (some v) w) ∧
    (∀ v w, v.Orderable order w →
      (∃! op, op ∈ [lessThan, equal, greaterThan] ∧ op.holds order (some v) w = true) ∧
      greaterThanOrEqual.holds order (some v) w =
        (greaterThan.holds order (some v) w || equal.holds order (some v) w) ∧
      lessThanOrEqual.holds order (some v) w =
        (lessThan.holds order (some v) w || equal.holds order (some v) w) ∧
      lessThan.holds order (some v) w = greaterThan.holds order (some w) v) ∧
    (∀ op ∈ [lessThan, lessThanOrEqual], ∀ u v w, op.holds order (some u) v = true →
      op.holds order (some v) w = true → op.holds order (some u) w = true) ∧
    (∀ v w, ¬ v.Orderable order w → ∀ op : Comparison, op.isRelational = true →
      op.holds order (some v) w = false) ∧
    (∀ x y : Binary64,
      (equal.holds order (some (.number x)) (.number y) = true ↔
        x.isNaN = false ∧ y.isNaN = false ∧ x.value = y.value) ∧
      (lessThan.holds order (some (.number x)) (.number y) = true ↔
        x.isNaN = false ∧ y.isNaN = false ∧ x.value < y.value) ∧
      (x.isZero = true → y.isZero = true →
        equal.holds order (some (.number x)) (.number y) = true)) ∧
    (∀ s t : String,
      (equal.holds order (some (.text s)) (.text t) = true ↔ s = t) ∧
      (lessThan.holds order (some (.text s)) (.text t) = true ↔
        order = .lexicographic ∧ s.toList < t.toList)) ∧
    ∀ (order' : TextOrder) (op : Comparison) (v w : Value),
      (op.isRelational = false ∨ ¬ ∃ s t, v = .text s ∧ w = .text t) →
        op.holds order (some v) w = op.holds order' (some v) w := by
  refine ⟨fun _ _ => rfl, fun op v w h => holds_of_typeName_ne h op,
    fun v w h => holds_notEqual_of_typeName_eq h, fun v w h => ?_, fun op hop u v w => holds_trans hop,
    fun v w h op => not_holds_of_not_orderable h, fun x y => ?_,
    fun s t => ⟨holds_equal_texts_iff s t, holds_lessThan_texts_iff s t⟩,
    fun order' op v w h => holds_textOrder h order order'⟩
  · obtain ⟨o, ho⟩ := exists_outcome h
    simp only [ho]
    refine ⟨existsUnique_admits o, ?_, ?_, ?_⟩ <;> cases o <;> rfl
  · refine ⟨holds_equal_numbers_iff x y, holds_lessThan_numbers_iff x y, fun hx hy => ?_⟩
    rw [holds_numbers (Binary64.not_isNaN_of_isZero hx) (Binary64.not_isNaN_of_isZero hy),
      Binary64.rank_eq_zero_of_isZero hx, Binary64.rank_eq_zero_of_isZero hy]
    rfl

/-- The two zeros are orderable and equal, and neither is less. Without an order on texts, no text is less
than another, but every text still equals itself. -/
theorem holds_laws_of_zeros :
    (Value.number .zero).Orderable .reject (.number (.neg .zero)) ∧
      equal.holds .reject (some (.number .zero)) (.number (.neg .zero)) = true ∧
      lessThan.holds .reject (some (.number .zero)) (.number (.neg .zero)) = false ∧
      ¬ (Value.text "a").Orderable .reject (.text "b") ∧
      lessThan.holds .reject (some (.text "a")) (.text "b") = false ∧
      equal.holds .reject (some (.text "a")) (.text "a") =
        equal.holds .lexicographic (some (.text "a")) (.text "a") := by
  obtain ⟨-, -, -, hordered, -, hunordered, hnumbers, -, hpolicy⟩ := holds_laws .reject
  have hzeros : (Value.number .zero).Orderable .reject (.number (.neg .zero)) :=
    .numbers (by decide) (by decide)
  have htexts : ¬ (Value.text "a").Orderable .reject (.text "b") := by
    intro h
    cases h with
    | texts _ _ ho => cases ho
  have hequal := (hnumbers .zero (.neg .zero)).2.2 (by decide) (by decide)
  refine ⟨hzeros, hequal, ?_, htexts, hunordered _ _ htexts lessThan rfl,
    hpolicy .lexicographic equal _ _ (.inl rfl)⟩
  obtain ⟨op, -, hunique⟩ := (hordered _ _ hzeros).1
  by_contra hless
  have h := (hunique lessThan ⟨by decide, by simpa using hless⟩).trans
    (hunique equal ⟨by decide, hequal⟩).symm
  cases h

end Comparison

end Workflow
