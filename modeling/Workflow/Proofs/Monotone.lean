import Workflow.Proofs.Formula

/-! More data, or an order on texts where there was none, can turn an outcome from false to true and
never from true to false: no comparison holds of a field without a value, and none holds because two
values have no order. Reading then stops at other places, so two readings are compared item by item. -/

namespace Workflow

/-- Every field that has a value under `a` has the same value under `b`. -/
def FieldLookup.Extends (b a : FieldLookup) : Prop := ∀ k v, a k = some v → b k = some v

/-- Values that have an order under `p` have it under `q`. -/
def TextOrder.Below (p q : TextOrder) : Prop := p = q ∨ p = .reject ∧ q = .lexicographic

/-- The data without some of the fields. -/
def Context.without (c : Context) (ks : List String) : Context := ks.foldl Keyed.erase c

theorem Context.extends_without (c : Context) (ks : List String) :
    FieldLookup.Extends c.lookup (c.without ks).lookup := by
  induction ks generalizing c with
  | nil => exact fun k v hv => hv
  | cons k ks ih =>
    intro j v hv
    have herase : (Keyed.erase c k).find? j = some v := ih (Keyed.erase c k) j v hv
    rw [Keyed.find?_erase] at herase
    split at herase
    · cases herase
    · exact herase

theorem Value.compare?_true_of_false {v w : Value} {o : Ordering}
    (h : v.compare? false w = some o) : v.compare? true w = some o := by
  cases v <;> cases w <;> simp_all [compare?]

section

variable {a b : FieldLookup} {p q : TextOrder}

theorem Comparison.holds_reject {op : Comparison} {found : Option Value} {expected : Value}
    (h : op.holds .reject found expected = true) :
    op.holds .lexicographic found expected = true := by
  cases found with
  | none => cases h
  | some v =>
    have hany : ∀ op : Comparison, (v.compare? false expected).any op.admits = true →
        (v.compare? true expected).any op.admits = true := by
      intro op hop
      cases hc : v.compare? false expected with
      | none =>
        rw [hc] at hop
        cases hop
      | some o => rwa [Value.compare?_true_of_false hc, ← hc]
    cases op with
    | equal => exact h
    | notEqual => exact h
    | _ => exact hany _ h

theorem Condition.satisfied_mono (hab : FieldLookup.Extends b a) (hpq : p.Below q) {c : Condition}
    (h : c.satisfied p a = true) : c.satisfied q b = true := by
  have hfound : c.comparison.holds p (b c.field) c.literal = true := by
    unfold satisfied at h
    cases hv : a c.field with
    | none =>
      rw [hv] at h
      cases h
    | some v => rwa [hab c.field v hv, ← hv]
  rcases hpq with rfl | ⟨rfl, rfl⟩
  · exact hfound
  · exact Comparison.holds_reject hfound

/-- Of two readings of a list, the second comes to true if the first does, provided that this holds
for each item and that the second reading has no error where the first had an outcome. -/
theorem Connective.run_scan_mono {α : Type} (c : Connective) {d d' : α → Query Bool} {l : List α}
    (htrue : ∀ i ∈ l, (d i).run a = .ok true → (d' i).run b = .ok true)
    (hfalse : ∀ i ∈ l, (d i).run a = .ok false → ∃ o, (d' i).run b = .ok o)
    (h : (c.scan d l).run a = .ok true) : (c.scan d' l).run b = .ok true := by
  induction l with
  | nil => exact h
  | cons i r ih =>
    have ih := ih (fun j hj => htrue j (List.mem_cons_of_mem i hj))
      (fun j hj => hfalse j (List.mem_cons_of_mem i hj))
    rw [scan_cons] at h ⊢
    obtain ⟨o, ho, hrest⟩ := Query.run_bind_eq_ok.1 h
    rw [Query.run_bind_eq_ok]
    cases o with
    | true =>
      have hi := htrue i List.mem_cons_self ho
      cases c with
      | and => exact ⟨true, hi, ih hrest⟩
      | or => exact ⟨true, hi, rfl⟩
    | false =>
      obtain ⟨o', ho'⟩ := hfalse i List.mem_cons_self ho
      cases c with
      | and => cases hrest
      | or =>
        -- the second reading may stop at this item, where the first one went on
        cases o' with
        | true => exact ⟨true, ho', rfl⟩
        | false => exact ⟨false, ho', ih hrest⟩

theorem Group.run_decide_mono (hab : FieldLookup.Extends b a) (hpq : p.Below q) {g : Group}
    (h : (g.decide p).run a = .ok true) : (g.decide q).run b = .ok true := by
  by_cases hg : g.conditions = []
  · rw [run_decide, if_pos hg] at h
    cases h
  · rw [decide, Connective.decideAll_of_ne_nil _ _ _ hg] at h ⊢
    refine g.connective.run_scan_mono (fun c _ hc => ?_) (fun c _ _ => ⟨_, c.run_decide q b⟩) h
    rw [Condition.run_decide] at hc ⊢
    rw [Condition.satisfied_mono hab hpq (Except.ok.inj hc)]

/-- Whether a group has an outcome does not depend on the data. -/
theorem Group.exists_run_decide {g : Group} {o : Bool} (h : (g.decide p).run a = .ok o) :
    ∃ o', (g.decide q).run b = .ok o' := by
  rw [run_decide] at h ⊢
  split at h
  · cases h
  · rename_i hg
    exact ⟨_, if_neg hg⟩

theorem Rule.run_decide_mono (hab : FieldLookup.Extends b a) (hpq : p.Below q) {r : Rule}
    (h : (r.decide p).run a = .ok true) : (r.decide q).run b = .ok true := by
  cases r with
  | single c =>
    have hc : c.satisfied p a = true := Except.ok.inj h
    exact congrArg Except.ok (Condition.satisfied_mono hab hpq hc)
  | grouped c groups =>
    by_cases hne : groups = []
    · subst hne
      cases h
    · rw [decide, Connective.decideAll_of_ne_nil _ _ _ hne] at h ⊢
      exact c.run_scan_mono (fun g _ hg => Group.run_decide_mono hab hpq hg)
        (fun g _ hg => Group.exists_run_decide hg) h

end

namespace Rule

/-- What is true stays true with more data and more order, for conditions, groups and rules with or
without empty groups; so what is false of an accepted rule stays false with less. -/
theorem decide_true_mono :
    (∀ (a b : FieldLookup) (p q : TextOrder), FieldLookup.Extends b a → p.Below q →
      (∀ c : Condition, (c.decide p).run a = .ok true → (c.decide q).run b = .ok true) ∧
      (∀ g : Group, (g.decide p).run a = .ok true → (g.decide q).run b = .ok true) ∧
      (∀ r : Rule, (r.decide p).run a = .ok true → (r.decide q).run b = .ok true) ∧
      ∀ element (r : Rule), r.validate element = .ok () →
        (r.decide q).run b = .ok false → (r.decide p).run a = .ok false) ∧
    (∀ (c : Context) ks order (r : Rule), (r.decide order).run (c.without ks).lookup = .ok true →
      (r.decide order).run c.lookup = .ok true) ∧
    ∀ look (r : Rule), (r.decide .reject).run look = .ok true →
      (r.decide .lexicographic).run look = .ok true := by
  refine ⟨fun a b p q hab hpq => ⟨fun c h => ?_, fun g h => Group.run_decide_mono hab hpq h,
    fun r h => run_decide_mono hab hpq h, fun element r hv hfalse => ?_⟩,
    fun c ks order r h => run_decide_mono (c.extends_without ks) (.inl rfl) h,
    fun look r h => run_decide_mono (fun _ _ hv => hv) (.inr ⟨rfl, rfl⟩) h⟩
  · exact run_decide_mono hab hpq (r := .single c) h
  · have hrun := run_decide_of_wellFormed p a (validate_eq_ok_iff.1 hv)
    cases ho : r.outcome p a with
    | false => rw [hrun, ho]
    | true =>
      rw [ho] at hrun
      rw [run_decide_mono hab hpq hrun] at hfalse
      cases hfalse

/-- The first reading goes past the first group, and the second ends there. Neither comes to the empty
group. -/
theorem decide_true_mono_of_second_group :
    FieldLookup.Extends
      (fun k => if k = "state" then some (.text "open") else if k = "owner" then some (.text "me")
        else none)
      (fun k => if k = "owner" then some (.text "me") else none) ∧
    TextOrder.Below .reject .lexicographic ∧
    ((grouped .or [⟨.and, [⟨"state", .lessThan, .text "x"⟩]⟩,
      ⟨.or, [⟨"owner", .equal, .text "me"⟩]⟩, ⟨.and, []⟩]).decide .reject).run
        (fun k => if k = "owner" then some (.text "me") else none) = .ok true ∧
    ((grouped .or [⟨.and, [⟨"state", .lessThan, .text "x"⟩]⟩,
      ⟨.or, [⟨"owner", .equal, .text "me"⟩]⟩, ⟨.and, []⟩]).decide .lexicographic).run
        (fun k => if k = "state" then some (.text "open") else
          if k = "owner" then some (.text "me") else none) = .ok true ∧
    (single ⟨"state", .notEqual, .text "open"⟩).validate "check" = .ok () ∧
    ((single ⟨"state", .notEqual, .text "open"⟩).decide .reject).run
        (fun k => if k = "owner" then some (.text "me") else none) = .ok false := by
  have hab : FieldLookup.Extends
      (fun k => if k = "state" then some (.text "open") else if k = "owner" then some (.text "me")
        else none)
      (fun k => if k = "owner" then some (.text "me") else none) := by
    intro k v hv
    by_cases hk : k = "state"
    · subst hk
      cases hv
    · simpa [hk] using hv
  have hpq : TextOrder.Below .reject .lexicographic := Or.inr ⟨rfl, rfl⟩
  obtain ⟨-, -, htrue, hfalse⟩ := decide_true_mono.1 _ _ _ _ hab hpq
  exact ⟨hab, hpq, rfl, htrue _ rfl, rfl, hfalse "check" _ rfl rfl⟩

end Rule

end Workflow
