import Mathlib.Data.List.Forall2
import Workflow.Decision
import Workflow.Proofs.Query

/-! The formula that a rule stands for, without any order of reading. A rule whose groups all have
conditions has the outcome of its formula; with an empty group it fails just if reading comes to
that group. -/

namespace Workflow

/-- Whether the data satisfy a condition. -/
def Condition.satisfied (order : TextOrder) (look : FieldLookup) (c : Condition) : Bool :=
  c.comparison.holds order (look c.field) c.literal

namespace Connective

variable {α : Type}

/-- All items have the property, or some item has it. -/
def combine : Connective → (α → Bool) → List α → Bool
  | and, p, l => l.all p
  | or, p, l => l.any p

theorem combine_eq (c : Connective) (p : α → Bool) (l : List α) :
    c.combine p l = if l.any (fun a => p a == c.decisive) then c.decisive else !c.decisive := by
  cases c with
  | and =>
    simp only [combine, decisive, beq_false, List.all_eq_not_any_not]
    cases l.any (fun a => !p a) <;> rfl
  | or =>
    simp only [combine, decisive, beq_true]
    cases l.any p <;> rfl

theorem combine_perm (c : Connective) (p : α → Bool) {l m : List α} (h : l.Perm m) :
    c.combine p l = c.combine p m := by
  cases c with
  | and => exact h.all_eq
  | or => exact h.any_eq

theorem combine_congr (c : Connective) {p q : α → Bool} {l m : List α}
    (h : List.Forall₂ (fun a b => p a = q b) l m) : c.combine p l = c.combine q m := by
  cases c with
  | and => induction h with
    | nil => rfl
    | cons hab _ ih => simp only [combine, List.all_cons, hab] at ih ⊢; rw [ih]
  | or => induction h with
    | nil => rfl
    | cons hab _ ih => simp only [combine, List.any_cons, hab] at ih ⊢; rw [ih]

/-- A scan of items that are refused or have an outcome each ends at the first that is refused or
decisive. -/
theorem run_scan (c : Connective) (look : FieldLookup) {decide : α → Query Bool}
    {refused p : α → Bool} {err : EvaluationError}
    (h : ∀ a, (decide a).run look = if refused a then .error err else .ok (p a)) (l : List α) :
    (c.scan decide l).run look =
      (l.find? fun a => refused a || p a == c.decisive).elim (.ok !c.decisive)
        fun a => if refused a then .error err else .ok c.decisive := by
  induction l with
  | nil => rfl
  | cons a r ih =>
    rw [scan_cons, Query.run_bind, h a, List.find?_cons]
    by_cases hr : refused a = true
    · simp [hr, Except.bind]
    · by_cases hp : p a = c.decisive
      · simp [hr, hp, Except.bind]
      · have hb : (p a == c.decisive) = false := by simpa using hp
        simp [hr, hp, hb, Except.bind, ih]

/-- Items that all have an outcome are combined, however soon the scan ends. -/
theorem run_scan_eq_combine (c : Connective) (look : FieldLookup) {decide : α → Query Bool}
    {p : α → Bool} {l : List α} (h : ∀ a ∈ l, (decide a).run look = .ok (p a)) :
    (c.scan decide l).run look = .ok (c.combine p l) := by
  rw [combine_eq]
  induction l with
  | nil => rfl
  | cons a r ih =>
    rw [scan_cons, Query.run_bind, h a List.mem_cons_self, List.any_cons]
    have ih := ih (fun b hb => h b (List.mem_cons_of_mem _ hb))
    by_cases hp : p a = c.decisive
    · simp [hp, Except.bind]
    · simp [hp, Except.bind, ih]

end Connective

theorem Condition.run_decide (order : TextOrder) (look : FieldLookup) (c : Condition) :
    (c.decide order).run look = .ok (c.satisfied order look) := rfl

namespace Group

/-- The outcome of a group's formula. -/
def outcome (order : TextOrder) (look : FieldLookup) (g : Group) : Bool :=
  g.connective.combine (Condition.satisfied order look) g.conditions

theorem run_decide (order : TextOrder) (look : FieldLookup) (g : Group) :
    (g.decide order).run look =
      if g.conditions = [] then .error (.emptyGroup .conditions)
      else .ok (g.outcome order look) := by
  by_cases hg : g.conditions = []
  · simp [Group.decide, Connective.decideAll, hg, Query.fail]
  · rw [if_neg hg, Group.decide, Connective.decideAll_of_ne_nil _ _ _ hg]
    exact g.connective.run_scan_eq_combine look fun c _ => Condition.run_decide order look c

/-- A group with the same conditions in another order. -/
structure Reordered (g h : Group) : Prop where
  connective : g.connective = h.connective
  conditions : g.conditions.Perm h.conditions

theorem Reordered.outcome_eq {g h : Group} (r : g.Reordered h) (order : TextOrder)
    (look : FieldLookup) : g.outcome order look = h.outcome order look := by
  unfold outcome
  rw [r.connective, h.connective.combine_perm _ r.conditions]

end Group

namespace Rule

theorem run_decide_grouped (order : TextOrder) (look : FieldLookup) (c : Connective)
    {groups : List Group} (h : groups ≠ []) :
    ((grouped c groups).decide order).run look =
      (groups.find? fun g => g.conditions.isEmpty || g.outcome order look == c.decisive).elim
        (.ok !c.decisive)
        fun g => if g.conditions.isEmpty then .error (.emptyGroup .conditions)
          else .ok c.decisive := by
  rw [decide, Connective.decideAll_of_ne_nil _ _ _ h]
  have hg : ∀ g : Group, (g.decide order).run look =
      if g.conditions.isEmpty then .error (.emptyGroup .conditions)
      else .ok (g.outcome order look) := by
    intro g
    simp only [Group.run_decide, List.isEmpty_iff]
  exact c.run_scan look hg groups

/-- What a rule stands for if its groups all have conditions. -/
def outcome (order : TextOrder) (look : FieldLookup) : Rule → Bool
  | single c => c.satisfied order look
  | grouped c groups => c.combine (Group.outcome order look) groups

theorem run_decide_of_wellFormed (order : TextOrder) (look : FieldLookup) {r : Rule}
    (h : r.wellFormed = true) : (r.decide order).run look = .ok (r.outcome order look) := by
  cases r with
  | single c => exact Condition.run_decide order look c
  | grouped c groups =>
    obtain ⟨hne, hg⟩ := complete_iff.1 h
    rw [decide, Connective.decideAll_of_ne_nil _ _ _ hne]
    refine c.run_scan_eq_combine look fun g hmem => ?_
    rw [Group.run_decide, if_neg (hg g hmem)]

/-- A rule with the same groups in another order, and in each the same conditions in another
order. -/
inductive Reordered : Rule → Rule → Prop
  | single (c : Condition) : Reordered (single c) (single c)
  | grouped (c : Connective) {gs ks hs : List Group} (inside : List.Forall₂ Group.Reordered gs ks)
      (outside : ks.Perm hs) : Reordered (grouped c gs) (grouped c hs)

theorem Reordered.outcome_eq {r q : Rule} (h : r.Reordered q) (order : TextOrder)
    (look : FieldLookup) : r.outcome order look = q.outcome order look := by
  cases h with
  | single c => rfl
  | grouped c inside outside =>
    simp only [outcome]
    rw [← c.combine_perm _ outside]
    exact c.combine_congr (inside.imp fun g k hgk => hgk.outcome_eq order look)

theorem Reordered.wellFormed_eq {r q : Rule} (h : r.Reordered q) : r.wellFormed = q.wellFormed := by
  cases h with
  | single c => rfl
  | @grouped c gs ks hs inside outside =>
    have hempty : gs.isEmpty = ks.isEmpty := by cases inside <;> rfl
    have hinside : gs.all (fun g => !g.conditions.isEmpty) =
        ks.all (fun g => !g.conditions.isEmpty) :=
      Connective.and.combine_congr (inside.imp fun g k hgk => by rw [hgk.conditions.isEmpty_eq])
    simp only [Rule.wellFormed, complete, hempty, outside.isEmpty_eq, hinside, outside.all_eq]

/-- Groups and rules are decided as their formulas say, and an empty group is an error just if it
comes before every decisive group. A rule that is accepted is always decided, as the outcomes that
its groups have on their own combine, in whatever order the groups and conditions stand. -/
theorem decide_eq_formula (order : TextOrder) (look : FieldLookup) :
    (∀ g : Group, (g.decide order).run look =
      if g.conditions = [] then .error (.emptyGroup .conditions)
      else .ok (g.connective.combine (fun c => c.comparison.holds order (look c.field) c.literal)
        g.conditions)) ∧
    (∀ c : Condition, ((single c).decide order).run look =
      .ok (c.comparison.holds order (look c.field) c.literal)) ∧
    (∀ c, ((grouped c []).decide order).run look = .error (.emptyGroup .groups)) ∧
    (∀ c groups, groups ≠ [] → ((grouped c groups).decide order).run look =
      (groups.find? fun g => g.conditions.isEmpty || g.outcome order look == c.decisive).elim
        (.ok !c.decisive)
        fun g => if g.conditions.isEmpty then .error (.emptyGroup .conditions)
          else .ok c.decisive) ∧
    (∀ element r, r.validate element = .ok () →
      (∃ b, (r.decide order).run look = .ok b) ∧
      (∀ c groups, r = grouped c groups → ∃ p : Group → Bool,
        (∀ g ∈ groups, (g.decide order).run look = .ok (p g)) ∧
        (r.decide order).run look = .ok (c.combine p groups)) ∧
      ∀ q, r.Reordered q → (q.decide order).run look = (r.decide order).run look) := by
  refine ⟨Group.run_decide order look, fun c => rfl, fun c => rfl,
    fun c groups h => run_decide_grouped order look c h, fun element r hv => ?_⟩
  have hr := validate_eq_ok_iff.1 hv
  have hrun := run_decide_of_wellFormed order look hr
  refine ⟨⟨_, hrun⟩, fun c groups hgr => ?_, fun q hq => ?_⟩
  · subst hgr
    refine ⟨Group.outcome order look, fun g hg => ?_, hrun⟩
    rw [Group.run_decide, if_neg ((complete_iff.1 hr).2 g hg)]
  · have hqw : q.wellFormed = true := hq.wellFormed_eq ▸ hr
    rw [hrun, run_decide_of_wellFormed order look hqw, hq.outcome_eq order look]

/-- A rule is accepted, and two orders of its groups and conditions have one outcome. -/
theorem decide_eq_formula_two_orders :
    (grouped .and [⟨.or, [⟨"owner", .notEqual, .text "me"⟩, ⟨"state", .equal, .text "open"⟩]⟩,
      ⟨.and, [⟨"state", .lessThan, .text "x"⟩]⟩]).validate "check" = .ok () ∧
    ((grouped .and [⟨.and, [⟨"state", .lessThan, .text "x"⟩]⟩,
      ⟨.or, [⟨"state", .equal, .text "open"⟩, ⟨"owner", .notEqual, .text "me"⟩]⟩]).decide
        .lexicographic).run (fun k => if k = "state" then some (.text "open") else none) =
      .ok true := by
  have h := decide_eq_formula .lexicographic
    (fun k => if k = "state" then some (.text "open") else none)
  have hv : (grouped .and
      [⟨.or, [⟨"owner", .notEqual, .text "me"⟩, ⟨"state", .equal, .text "open"⟩]⟩,
        ⟨.and, [⟨"state", .lessThan, .text "x"⟩]⟩]).validate "check" = .ok () := rfl
  obtain ⟨-, -, hreorder⟩ := h.2.2.2.2 "check" _ hv
  have hinside : List.Forall₂ Group.Reordered
      [⟨.or, [⟨"owner", .notEqual, .text "me"⟩, ⟨"state", .equal, .text "open"⟩]⟩,
        ⟨.and, [⟨"state", .lessThan, .text "x"⟩]⟩]
      [⟨.or, [⟨"state", .equal, .text "open"⟩, ⟨"owner", .notEqual, .text "me"⟩]⟩,
        ⟨.and, [⟨"state", .lessThan, .text "x"⟩]⟩] :=
    .cons ⟨rfl, List.Perm.swap _ _ _⟩ (.cons ⟨rfl, List.Perm.refl _⟩ .nil)
  exact ⟨hv, (hreorder _ (.grouped .and hinside (List.Perm.swap _ _ _))).trans rfl⟩

end Rule

end Workflow
