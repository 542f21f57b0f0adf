import Mathlib
import Workflow.Proofs.Explanation
import Workflow.Proofs.Formula

/-! What a trace keeps of the rule that it explains. The children of a group node stand for the first
items of the group, in order, up to the first decisive one; the items after it are counted. -/

namespace Workflow

namespace Connective

variable {α : Type}

/-- The parts of a group node over a list of items, where `stands` says which child stands for which
item. -/
structure NodeOver (c : Connective) (stands : α → Trace → Prop) (l : List α) (ts : List Trace)
    (skipped : Nat) (outcome : Bool) : Prop where
  nonempty : ts ≠ []
  children : List.Forall₂ stands (l.take ts.length) ts
  counted : ts.length + skipped = l.length
  undecided : ∀ t ∈ ts.dropLast, t.outcome ≠ c.decisive
  decided : ∀ t ∈ ts.getLast?, outcome = c.decisive ↔ t.outcome = c.decisive
  stopped : 0 < skipped → ∀ t ∈ ts.getLast?, t.outcome = c.decisive
  combined : outcome = c.combine Trace.outcome ts

/-- What a scan keeps is one trace for each of the first items, and the number of the others. -/
theorem scanTraced_children (c : Connective) {look : FieldLookup} {explain : α → Query Trace}
    {l : List α} {s : Scan} (hs : (c.scanTraced explain l).run look = .ok s) :
    List.Forall₂ (fun a t => (explain a).run look = .ok t) (l.take s.children.length) s.children ∧
      s.children.length + s.skipped = l.length := by
  induction l generalizing s with
  | nil =>
    cases hs
    exact ⟨.nil, rfl⟩
  | cons a r ih =>
    rw [scanTraced_cons] at hs
    obtain ⟨t, ht, hs⟩ := Query.run_bind_eq_ok.1 hs
    by_cases hd : t.outcome = c.decisive
    · rw [if_pos hd] at hs
      cases hs
      exact ⟨.cons ht .nil, Nat.add_comm 1 r.length⟩
    · rw [if_neg hd] at hs
      obtain ⟨s', hr, hs⟩ := Query.run_bind_eq_ok.1 hs
      cases hs
      obtain ⟨hchildren, hcount⟩ := ih hr
      refine ⟨.cons ht hchildren, ?_⟩
      simp only [List.length_cons]
      omega

/-- A scan of some items ends with one of them: all before it are not decisive, and if it is not
either then it is the last item. -/
theorem scanTraced_ends (c : Connective) {look : FieldLookup} {explain : α → Query Trace}
    {l : List α} (hl : l ≠ []) {s : Scan} (hs : (c.scanTraced explain l).run look = .ok s) :
    ∃ front t, s.children = front ++ [t] ∧ (∀ u ∈ front, u.outcome ≠ c.decisive) ∧
      (s.outcome = c.decisive ↔ t.outcome = c.decisive) ∧
      (0 < s.skipped → t.outcome = c.decisive) := by
  induction l generalizing s with
  | nil => exact absurd rfl hl
  | cons a r ih =>
    rw [scanTraced_cons] at hs
    obtain ⟨t, -, hs⟩ := Query.run_bind_eq_ok.1 hs
    by_cases hd : t.outcome = c.decisive
    · rw [if_pos hd] at hs
      cases hs
      exact ⟨[], t, rfl, nofun, iff_of_true rfl hd, fun _ => hd⟩
    · rw [if_neg hd] at hs
      obtain ⟨s', hr, hs⟩ := Query.run_bind_eq_ok.1 hs
      cases hs
      by_cases hnil : r = []
      · -- the last item, and still nothing is decisive
        subst hnil
        cases hr
        exact ⟨[], t, rfl, nofun, iff_of_false (by simp) hd, nofun⟩
      · obtain ⟨front, u, hu, hfront, hends⟩ := ih hnil hr
        refine ⟨t :: front, u, by rw [hu]; rfl, ?_, hends⟩
        exact List.forall_mem_cons.2 ⟨hd, hfront⟩

theorem combine_concat (c : Connective) (p : α → Bool) {front : List α} {a : α} {outcome : Bool}
    (hfront : ∀ b ∈ front, p b ≠ c.decisive) (ha : outcome = c.decisive ↔ p a = c.decisive) :
    outcome = c.combine p (front ++ [a]) := by
  have hnone : front.any (fun b => p b == c.decisive) = false := by
    simpa using hfront
  rw [combine_eq, List.any_append, hnone, Bool.false_or, List.any_cons, List.any_nil, Bool.or_false]
  by_cases hd : p a = c.decisive
  · simpa [hd] using ha
  · have hout : outcome = !c.decisive := Bool.eq_not.2 fun h => hd (ha.1 h)
    simpa [hd] using hout

/-- Explaining a list of items gives a group node over them. -/
theorem explainAll_node {c : Connective} {level : GroupLevel} {look : FieldLookup}
    {explain : α → Query Trace} {stands : α → Trace → Prop}
    (h : ∀ a t, (explain a).run look = .ok t → stands a t) {l : List α} {t : Trace}
    (ht : (c.explainAll level explain l).run look = .ok t) :
    ∃ ts skipped outcome, t = .group c ts skipped outcome ∧
      c.NodeOver stands l ts skipped outcome := by
  by_cases hl : l = []
  · subst hl
    cases ht
  · rw [explainAll_of_ne_nil c level explain hl] at ht
    obtain ⟨s, hs, ht⟩ := Query.run_bind_eq_ok.1 ht
    cases ht
    obtain ⟨hchildren, hcount⟩ := c.scanTraced_children hs
    obtain ⟨front, u, hu, hfront, hdecided, hstopped⟩ := c.scanTraced_ends hl hs
    refine ⟨_, _, _, rfl, ?_, hchildren.imp h, hcount, ?_, ?_, ?_, ?_⟩
    · simp [hu]
    · simpa [hu] using hfront
    · simpa [hu] using hdecided
    · simpa [hu] using hstopped
    · rw [hu]
      exact c.combine_concat _ hfront hdecided

theorem comparisonsOf_le {stands : α → Trace → Prop} {weight : α → Nat}
    (h : ∀ a t, stands a t → t.comparisons ≤ weight a) {l : List α} {ts : List Trace}
    (hts : List.Forall₂ stands l ts) : Trace.comparisonsOf ts ≤ (l.map weight).sum := by
  induction hts with
  | nil => exact Nat.le_refl 0
  | cons hat _ ih =>
    simp only [Trace.comparisonsOf, List.map_cons, List.sum_cons]
    exact Nat.add_le_add (h _ _ hat) ih

/-- A node makes no more comparisons than all of its items would. -/
theorem NodeOver.comparisonsOf_le {c : Connective} {stands : α → Trace → Prop} {weight : α → Nat}
    (h : ∀ a t, stands a t → t.comparisons ≤ weight a) {l : List α} {ts : List Trace}
    {skipped : Nat} {outcome : Bool} (hn : c.NodeOver stands l ts skipped outcome) :
    Trace.comparisonsOf ts ≤ (l.map weight).sum := by
  have hfront := Connective.comparisonsOf_le h hn.children
  have hall : (l.map weight).sum =
      ((l.take ts.length).map weight).sum + ((l.drop ts.length).map weight).sum := by
    rw [← List.sum_append, ← List.map_append, List.take_append_drop]
  omega

end Connective

/-- The trace has the parts of the condition, the value found, and the outcome of the condition. -/
def Condition.RecordedBy (order : TextOrder) (look : FieldLookup) (c : Condition) (t : Trace) :
    Prop :=
  ∃ b, (c.decide order).run look = .ok b ∧
    t = .comparison c.field c.comparison (look c.field) c.literal b

/-- The trace is a node over the conditions of the group. -/
def Group.RecordedBy (order : TextOrder) (look : FieldLookup) (g : Group) (t : Trace) : Prop :=
  ∃ ts skipped outcome, t = .group g.connective ts skipped outcome ∧
    g.connective.NodeOver (Condition.RecordedBy order look) g.conditions ts skipped outcome

/-- The trace is a comparison, or a node over groups. -/
def Rule.RecordedBy (order : TextOrder) (look : FieldLookup) (r : Rule) (t : Trace) : Prop :=
  match r with
  | single c => c.RecordedBy order look t
  | grouped c groups => ∃ ts skipped outcome, t = .group c ts skipped outcome ∧
    c.NodeOver (Group.RecordedBy order look) groups ts skipped outcome

section

variable {order : TextOrder} {look : FieldLookup} {t : Trace}

theorem Condition.explain_recordedBy {c : Condition} (ht : (c.explain order).run look = .ok t) :
    c.RecordedBy order look t := by
  cases ht
  exact ⟨_, rfl, rfl⟩

theorem Group.explain_recordedBy {g : Group} (ht : (g.explain order).run look = .ok t) :
    g.RecordedBy order look t :=
  Connective.explainAll_node (fun _ _ => Condition.explain_recordedBy) ht

theorem Condition.RecordedBy.comparisons_eq {c : Condition} (h : c.RecordedBy order look t) :
    t.comparisons = 1 := by
  obtain ⟨b, -, rfl⟩ := h
  rfl

theorem Group.RecordedBy.comparisons_le {g : Group} (h : g.RecordedBy order look t) :
    t.comparisons ≤ g.conditions.length := by
  obtain ⟨ts, skipped, outcome, rfl, hn⟩ := h
  have hle := hn.comparisonsOf_le fun _ _ hc => Nat.le_of_eq hc.comparisons_eq
  rwa [List.map_const', List.sum_replicate_nat, Nat.mul_one] at hle

theorem Rule.RecordedBy.comparisons_le {r : Rule} (h : r.RecordedBy order look t) :
    t.comparisons ≤ r.conditions.length := by
  cases r with
  | single c => exact Nat.le_of_eq (Condition.RecordedBy.comparisons_eq h)
  | grouped c groups =>
    obtain ⟨ts, skipped, outcome, rfl, hn⟩ := h
    rw [conditions, List.length_flatMap]
    exact hn.comparisonsOf_le fun _ _ hg => hg.comparisons_le

/-- The trace of a rule is a faithful record of it. A single condition gives one comparison; groups
give a node of their combination over nodes of their connectives over comparisons, each with the parts
of the condition in its place. Every node has a child, no child before the last is decisive, the last
one settles the outcome, and items are left out only after a decisive one. -/
theorem Rule.explain_faithful {r : Rule} (ht : (r.explain order).run look = .ok t) :
    r.RecordedBy order look t ∧ t.comparisons ≤ r.conditions.length := by
  have hrecorded : r.RecordedBy order look t := by
    cases r with
    | single c => exact Condition.explain_recordedBy ht
    | grouped c groups => exact Connective.explainAll_node (fun _ _ => Group.explain_recordedBy) ht
  exact ⟨hrecorded, hrecorded.comparisons_le⟩

/-- The last condition of the first group settles that group only; the first of the second settles
the rule, and an empty group after it is left out. -/
theorem Rule.explain_faithful_second_group :
    ((grouped .or
        [⟨.and, [⟨"state", .equal, .text "open"⟩, ⟨"owner", .equal, .text "me"⟩]⟩,
          ⟨.or, [⟨"state", .lessThan, .text "x"⟩, ⟨"owner", .equal, .text "me"⟩]⟩,
          ⟨.and, []⟩]).explain .lexicographic).run
        (fun k => if k = "state" then some (.text "open") else none) =
      .ok (.group .or
        [.group .and
            [.comparison "state" .equal (some (.text "open")) (.text "open") true,
              .comparison "owner" .equal none (.text "me") false] 0 false,
          .group .or [.comparison "state" .lessThan (some (.text "open")) (.text "x") true] 1 true]
        1 true) ∧
    Connective.or.NodeOver
      (Group.RecordedBy .lexicographic fun k => if k = "state" then some (.text "open") else none)
      [⟨.and, [⟨"state", .equal, .text "open"⟩, ⟨"owner", .equal, .text "me"⟩]⟩,
        ⟨.or, [⟨"state", .lessThan, .text "x"⟩, ⟨"owner", .equal, .text "me"⟩]⟩, ⟨.and, []⟩]
      [.group .and
          [.comparison "state" .equal (some (.text "open")) (.text "open") true,
            .comparison "owner" .equal none (.text "me") false] 0 false,
        .group .or [.comparison "state" .lessThan (some (.text "open")) (.text "x") true] 1 true]
      1 true := by
  have ht : ((grouped .or
      [⟨.and, [⟨"state", .equal, .text "open"⟩, ⟨"owner", .equal, .text "me"⟩]⟩,
        ⟨.or, [⟨"state", .lessThan, .text "x"⟩, ⟨"owner", .equal, .text "me"⟩]⟩,
        ⟨.and, []⟩]).explain .lexicographic).run
      (fun k => if k = "state" then some (.text "open") else none) = .ok _ := rfl
  obtain ⟨⟨_, _, _, hnode, hover⟩, -⟩ := explain_faithful ht
  cases hnode
  exact ⟨ht, hover⟩

end

end Workflow
