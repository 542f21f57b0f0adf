import Workflow.Decision
import Workflow.Proofs.Query

/-! Explaining a rule is deciding it: with the trace reduced to its outcome, the two are one query.
The comparisons of a trace are what was read, in order. -/

namespace Workflow

namespace Trace

mutual

theorem comparisons_eq_length (t : Trace) : t.comparisons = t.leaves.length := by
  cases t with
  | comparison => rfl
  | group c ts skipped outcome => exact comparisonsOf_eq_length ts

theorem comparisonsOf_eq_length (ts : List Trace) :
    comparisonsOf ts = (leavesOf ts).length := by
  cases ts with
  | nil => rfl
  | cons t r =>
    simp only [comparisonsOf, leavesOf, List.length_append]
    rw [comparisons_eq_length t, comparisonsOf_eq_length r]

end

end Trace

/-- A trace that the query gives lists the fields that it read, with what was found. -/
def Query.Records (look : FieldLookup) (q : Query Trace) : Prop :=
  ∀ t, q.run look = .ok t → t.leaves = (q.reads look).map fun k => (k, look k)

namespace Connective

variable {α : Type}

theorem scanTraced_map_outcome (c : Connective) {explain : α → Query Trace}
    {decide : α → Query Bool} (h : ∀ a, (explain a).map Trace.outcome = decide a) (l : List α) :
    (c.scanTraced explain l).map Scan.outcome = c.scan decide l := by
  induction l with
  | nil => rfl
  | cons a r ih =>
    rw [scanTraced_cons, scan_cons, Query.map_bind, ← h a, Query.bind_map]
    congr 1
    funext t
    by_cases ht : t.outcome = c.decisive
    · simp [ht]
    · simp only [ht, if_false, Query.map_bind, Query.map_answer_ok]
      exact ih

theorem explainAll_map_outcome (c : Connective) (level : GroupLevel) {explain : α → Query Trace}
    {decide : α → Query Bool} (h : ∀ a, (explain a).map Trace.outcome = decide a) (l : List α) :
    (c.explainAll level explain l).map Trace.outcome = c.decideAll level decide l := by
  by_cases hl : l = []
  · subst hl; rfl
  · rw [explainAll_of_ne_nil c level explain hl, decideAll_of_ne_nil c level decide hl,
      Query.map_bind]
    exact scanTraced_map_outcome c h l

/-- The traces that a scan keeps list what the scan read, if each item's trace does. -/
theorem scanTraced_leaves (c : Connective) {look : FieldLookup} {explain : α → Query Trace}
    (h : ∀ a, (explain a).Records look) (l : List α) (s : Scan)
    (hs : (c.scanTraced explain l).run look = .ok s) :
    Trace.leavesOf s.children =
      ((c.scanTraced explain l).reads look).map fun k => (k, look k) := by
  induction l generalizing s with
  | nil => cases hs; rfl
  | cons a r ih =>
    rw [scanTraced_cons] at hs ⊢
    obtain ⟨t, ht, hs⟩ := Query.run_bind_eq_ok.1 hs
    rw [Query.reads_bind_of_ok ht, List.map_append, ← h a t ht]
    -- a decisive item ends the scan, so nothing is read after it
    by_cases hd : t.outcome = c.decisive
    · rw [if_pos hd] at hs ⊢
      cases hs
      simp [Trace.leavesOf]
    · rw [if_neg hd] at hs ⊢
      obtain ⟨s', hr, hs⟩ := Query.run_bind_eq_ok.1 hs
      cases hs
      rw [Query.reads_bind_of_ok hr, Query.reads_answer, List.append_nil, ← ih s' hr]
      rfl

theorem explainAll_records (c : Connective) (level : GroupLevel) {look : FieldLookup}
    {explain : α → Query Trace} (h : ∀ a, (explain a).Records look) (l : List α) :
    (c.explainAll level explain l).Records look := by
  intro t ht
  by_cases hl : l = []
  · subst hl; cases ht
  · rw [explainAll_of_ne_nil c level explain hl] at ht ⊢
    obtain ⟨s, hs, ht⟩ := Query.run_bind_eq_ok.1 ht
    cases ht
    rw [Query.reads_bind_of_ok hs, Query.reads_answer, List.append_nil]
    exact scanTraced_leaves c h l s hs

end Connective

theorem Condition.explain_map_outcome (order : TextOrder) (c : Condition) :
    (c.explain order).map Trace.outcome = c.decide order := rfl

theorem Group.explain_map_outcome (order : TextOrder) (g : Group) :
    (g.explain order).map Trace.outcome = g.decide order :=
  g.connective.explainAll_map_outcome _ (Condition.explain_map_outcome order) g.conditions

theorem Rule.explain_map_outcome (order : TextOrder) (r : Rule) :
    (r.explain order).map Trace.outcome = r.decide order := by
  cases r with
  | single c => exact Condition.explain_map_outcome order c
  | grouped c groups =>
    exact c.explainAll_map_outcome _ (Group.explain_map_outcome order) groups

theorem Condition.explain_records (order : TextOrder) (look : FieldLookup) (c : Condition) :
    (c.explain order).Records look := by
  intro t ht
  cases ht
  rfl

theorem Group.explain_records (order : TextOrder) (look : FieldLookup) (g : Group) :
    (g.explain order).Records look :=
  g.connective.explainAll_records _ (Condition.explain_records order look) g.conditions

theorem Rule.explain_records (order : TextOrder) (look : FieldLookup) (r : Rule) :
    (r.explain order).Records look := by
  cases r with
  | single c => exact Condition.explain_records order look c
  | grouped c groups =>
    exact c.explainAll_records _ (Group.explain_records order look) groups

/-- Explaining fails just where deciding fails and for the same reason, and else gives a trace of
the same outcome. Both read the same fields in the same order, and a trace has one comparison for
each, with the value that was found. -/
theorem Rule.explain_agrees_with_decide (order : TextOrder) (look : FieldLookup) (r : Rule) :
    (∀ e, (r.explain order).run look = .error e ↔ (r.decide order).run look = .error e) ∧
    (∀ b, (r.decide order).run look = .ok b ↔
      ∃ t, (r.explain order).run look = .ok t ∧ t.outcome = b) ∧
    (r.explain order).reads look = (r.decide order).reads look ∧
    (∀ t, (r.explain order).run look = .ok t →
      t.leaves.map Prod.fst = (r.explain order).reads look ∧
      (∀ e ∈ t.leaves, e.2 = look e.1) ∧
      t.comparisons = ((r.explain order).reads look).length) := by
  refine ⟨fun e => ?_, fun b => ?_, ?_, fun t ht => ?_⟩
  · rw [← Rule.explain_map_outcome order r, Query.run_map_eq_error]
  · rw [← Rule.explain_map_outcome order r, Query.run_map_eq_ok]
  · rw [← Rule.explain_map_outcome order r, Query.reads_map]
  · have hl := Rule.explain_records order look r t ht
    refine ⟨?_, fun e he => ?_, ?_⟩
    · rw [hl, List.map_map]
      exact List.map_id _
    · rw [hl] at he
      obtain ⟨k, -, rfl⟩ := List.mem_map.1 he
      rfl
    · rw [Trace.comparisons_eq_length, hl, List.length_map]

/-- The first condition of the second group settles the outcome; nothing after it is read. -/
theorem Rule.explain_agrees_with_decide_second_group :
    ∃ t, ((Rule.grouped .or
      [⟨.and, [⟨"owner", .equal, .text "me"⟩, ⟨"state", .equal, .text "open"⟩]⟩,
        ⟨.or, [⟨"state", .greaterThan, .text "done"⟩, ⟨"owner", .equal, .text "me"⟩]⟩,
        ⟨.and, []⟩]).explain .lexicographic).run
        (fun k => if k = "state" then some (.text "open") else none) = .ok t ∧
      t.leaves.map Prod.fst = ["owner", "state"] ∧ t.comparisons = 2 := by
  have h := Rule.explain_agrees_with_decide .lexicographic
    (fun k => if k = "state" then some (.text "open") else none) (.grouped .or
      [⟨.and, [⟨"owner", .equal, .text "me"⟩, ⟨"state", .equal, .text "open"⟩]⟩,
        ⟨.or, [⟨"state", .greaterThan, .text "done"⟩, ⟨"owner", .equal, .text "me"⟩]⟩,
        ⟨.and, []⟩])
  obtain ⟨t, ht, -⟩ := (h.2.1 true).1 rfl
  obtain ⟨hf, -, hn⟩ := h.2.2.2 t ht
  exact ⟨t, ht, hf.trans rfl, hn.trans rfl⟩

end Workflow
