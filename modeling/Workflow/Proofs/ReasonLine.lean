import Mathlib
import Workflow.Proofs.Parentheses
import Workflow.Proofs.TraceShape
import Workflow.Proofs.Traverse

/-! The line that says why a rule was decided as it was. It is the text of the trace's reason, so it can
be read in one way only. -/

namespace Workflow

/-- A comparison as it is shown: the field, what was found there if anything was, and the literal. -/
abbrev Shown := String × Comparison × Option String × String

namespace Reason

mutual

/-- The comparisons from left to right. -/
def shown : Reason → List Shown
  | comparison field op found expected => [(field, op, found, expected)]
  | group _ rs => shownOf rs

def shownOf : List Reason → List Shown
  | [] => []
  | r :: rs => r.shown ++ shownOf rs

end

theorem shown_ofItems (c : Connective) (rs : List Reason) : (ofItems c rs).shown = shownOf rs := by
  unfold ofItems
  split
  · rw [shownOf, shownOf, List.append_nil]
  · rw [shown]

end Reason

namespace Trace

mutual

/-- The comparisons as they are shown, from left to right. -/
def shown : Trace → List Shown
  | comparison field op found expected _ =>
    [(field, op, found.map Value.display, expected.display)]
  | group _ ts _ _ => shownOf ts

def shownOf : List Trace → List Shown
  | [] => []
  | t :: r => t.shown ++ shownOf r

end

mutual

/-- What is shown of a trace: its comparisons, and its groups of more than one item. -/
def reason : Trace → Reason
  | comparison field op found expected _ =>
    .comparison field op (found.map Value.display) expected.display
  | group c ts _ _ => .ofItems c (reasonsOf ts)

def reasonsOf : List Trace → List Reason
  | [] => []
  | t :: r => t.reason :: reasonsOf r

end

mutual

theorem shown_reason (t : Trace) : t.reason.shown = t.shown := by
  cases t with
  | comparison => rfl
  | group c ts skipped outcome =>
    rw [reason, Reason.shown_ofItems, shown]
    exact shownOf_reasonsOf ts

theorem shownOf_reasonsOf (ts : List Trace) : Reason.shownOf (reasonsOf ts) = shownOf ts := by
  cases ts with
  | nil => rfl
  | cons t r => rw [reasonsOf, Reason.shownOf, shownOf, shown_reason t, shownOf_reasonsOf r]

end

/-- Every group has an item, and the names and texts that are shown are words. -/
inductive Legible : Trace → Prop
  | comparison {field : String} {op : Comparison} {found : Option Value} {expected : Value}
      {outcome : Bool} (hfield : Plain field.toList) (hfound : ∀ v ∈ found, v.Plain)
      (hexpected : expected.Plain) : Legible (.comparison field op found expected outcome)
  | group {c : Connective} {ts : List Trace} {skipped : Nat} {outcome : Bool} (hne : ts ≠ [])
      (h : ∀ t ∈ ts, Legible t) : Legible (.group c ts skipped outcome)

theorem reasonsOf_eq_map (ts : List Trace) : reasonsOf ts = ts.map reason := by
  induction ts with
  | nil => rfl
  | cons t r ih => rw [reasonsOf, ih, List.map_cons]

theorem showFound_eq (found : Option Value) :
    showFound found = ((found.map Value.display).getD "undefined").toList := by
  cases found with
  | none => rfl
  | some v => exact String.toList_ofList.symm

/-- The items of a group are joined, if each of them is shown by the text of its reason. -/
theorem printItems_eq (c : Connective) {ts : List Trace}
    (h : ∀ t ∈ ts, t.print false = t.reason.text) :
    printItems c ts = Reason.joined c (ts.map reason) := by
  induction ts with
  | nil => rfl
  | cons t r ih =>
    obtain ⟨ht, hr⟩ := List.forall_mem_cons.1 h
    cases r with
    | nil => exact ht
    | cons u r =>
      rw [printItems, ih hr, ht, List.map_cons (l := u :: r), Reason.joined_cons c t.reason (by simp)]
      · simp
      · simp

theorem print_eq (outermost : Bool) (c : Connective) (skipped : Nat) (outcome : Bool)
    {ts : List Trace} (h : ∀ t ∈ ts, t.print false = t.reason.text) :
    (group c ts skipped outcome).print outermost =
      if !outermost && 1 < ts.length then '(' :: (Reason.joined c (ts.map reason) ++ [')'])
      else Reason.joined c (ts.map reason) := by
  rw [print, printItems_eq c h]
  rfl

/-- A trace is shown by the text of its reason. -/
theorem reason_legible_and_print {t : Trace} (h : t.Legible) :
    t.reason.Legible ∧ t.print false = t.reason.text := by
  induction h with
  | @comparison field op found expected outcome hfield hfound hexpected =>
    constructor
    · refine .comparison hfield (fun s hs => ?_) hexpected.displayed
      obtain ⟨v, hv, rfl⟩ := Option.map_eq_some_iff.1 hs
      exact (hfound v hv).displayed
    · have hexpected : expected.display.toList = expected.print := String.toList_ofList
      simp [print, reason, Reason.text, showFound_eq, hexpected]
  | @group c ts skipped outcome hne h ih =>
    have hprint := print_eq false c skipped outcome fun t ht => (ih t ht).2
    rw [hprint, reason, reasonsOf_eq_map]
    have hpos := List.length_pos_iff.2 hne
    by_cases hseveral : 1 < ts.length
    · rw [Reason.ofItems_eq_group c (by simpa using hseveral)]
      constructor
      · exact .group (by simpa using hseveral) (List.forall_mem_map.2 fun t ht => (ih t ht).1)
      · rw [Reason.text]
        simp [hseveral]
    · -- one item stands for its group, in the line and in the reason
      obtain ⟨t, rfl⟩ := List.length_eq_one_iff.1 (by omega : ts.length = 1)
      refine ⟨(ih t List.mem_cons_self).1, ?_⟩
      rw [if_neg (by simp)]
      simp [Reason.ofItems, Reason.joined]

/-- The line joins the items of the trace, which stands for itself if it is no group. -/
theorem exists_items {t : Trace} (h : t.Legible) : ∃ c rs, rs ≠ [] ∧
    (∀ r ∈ rs, r.Legible) ∧ t.print true = Reason.joined c rs ∧ t.reason = Reason.ofItems c rs := by
  cases h with
  | @comparison field op found expected outcome hfield hfound hexpected =>
    have hcomparison : (comparison field op found expected outcome).Legible :=
      .comparison hfield hfound hexpected
    obtain ⟨hlegible, hprint⟩ := reason_legible_and_print hcomparison
    refine ⟨.and, [_], List.cons_ne_nil _ _, ?_, hprint, rfl⟩
    simpa using hlegible
  | @group c ts skipped outcome hne h =>
    have hitems : ∀ t ∈ ts, t.reason.Legible ∧ t.print false = t.reason.text :=
      fun t ht => reason_legible_and_print (h t ht)
    refine ⟨c, ts.map reason, by simpa using hne, ?_, ?_, ?_⟩
    · exact List.forall_mem_map.2 fun t ht => (hitems t ht).1
    · exact print_eq true c skipped outcome fun t ht => (hitems t ht).2
    · rw [reason, reasonsOf_eq_map]

theorem toList_render (t : Trace) : t.render.toList = t.print true := String.toList_ofList

/-- Traces with one line have one reason. -/
theorem reason_eq_of_render_eq {t u : Trace} (ht : t.Legible) (hu : u.Legible)
    (h : t.render = u.render) : t.reason = u.reason := by
  obtain ⟨c, rs, hr, hrs, hprint, hreason⟩ := exists_items ht
  obtain ⟨d, ss, hs, hss, hprint', hreason'⟩ := exists_items hu
  have hjoined : Reason.joined c rs = Reason.joined d ss := by
    rw [← hprint, ← hprint', ← toList_render, ← toList_render, h]
  rw [hreason, hreason', Reason.ofItems_eq_of_joined_eq hrs hss hr hs hjoined]

theorem connective_eq_of_render {t : Trace} (ht : t.Legible) {c d : Connective}
    (h : AtOneLevel c d t.render.toList) : c = d := by
  obtain ⟨b, rs, hr, hrs, hprint, -⟩ := exists_items ht
  rw [toList_render, hprint] at h
  exact Reason.connective_eq_of_joined hrs hr h

end Trace

/-! A trace of a rule has an item in every group. -/

/-- The name of the field is a word, and so are the texts that are compared. -/
structure Condition.Plain (look : FieldLookup) (c : Condition) : Prop where
  field : Workflow.Plain c.field.toList
  found : ∀ v ∈ look c.field, v.Plain
  literal : c.literal.Plain

section

variable {order : TextOrder} {look : FieldLookup} {t : Trace}

theorem Connective.NodeOver.legible {α : Type} {c : Connective} {stands : α → Trace → Prop}
    {l : List α} {ts : List Trace} {skipped : Nat} {outcome : Bool}
    (hn : c.NodeOver stands l ts skipped outcome) (h : ∀ a ∈ l, ∀ t, stands a t → t.Legible) :
    (Trace.group c ts skipped outcome).Legible := by
  apply Trace.Legible.group hn.nonempty
  intro t ht
  obtain ⟨a, ha, hstands⟩ := exists_left_of_forall₂ hn.children ht
  exact h a (List.mem_of_mem_take ha) t hstands

theorem Condition.RecordedBy.legible {c : Condition} (hplain : c.Plain look)
    (h : c.RecordedBy order look t) : t.Legible := by
  obtain ⟨b, -, rfl⟩ := h
  exact .comparison hplain.field hplain.found hplain.literal

theorem Rule.legible_of_explain {r : Rule} (hplain : ∀ c ∈ r.conditions, c.Plain look)
    (ht : (r.explain order).run look = .ok t) : t.Legible := by
  cases r with
  | single c => exact (Condition.explain_recordedBy ht).legible (hplain c List.mem_cons_self)
  | grouped c groups =>
    obtain ⟨ts, skipped, outcome, rfl, hn⟩ :=
      Connective.explainAll_node (fun _ _ => Group.explain_recordedBy) ht
    apply hn.legible
    intro g hg u hu
    obtain ⟨us, skipped', outcome', rfl, hn'⟩ := hu
    apply hn'.legible
    intro a ha u hu
    exact hu.legible (hplain a (List.mem_flatMap.2 ⟨g, hg, ha⟩))

end

/-- The line of a trace can be read in one way only: traces with one line show the same comparisons in
the same order, in the same groups under the same connectives, where a group of one item is that item.
No pair of parentheses has both connectives. Every trace of a rule is such a trace if the names and
texts in it are words. -/
theorem Trace.render_unambiguous :
    (∀ t u : Trace, t.Legible → u.Legible → t.render = u.render →
      t.shown = u.shown ∧ t.reason = u.reason) ∧
    (∀ t : Trace, t.Legible → ∀ c d, AtOneLevel c d t.render.toList → c = d) ∧
    ∀ (order : TextOrder) (look : FieldLookup) (r : Rule) (t : Trace),
      (∀ c ∈ r.conditions, c.Plain look) → (r.explain order).run look = .ok t → t.Legible := by
  refine ⟨?_, ?_, ?_⟩
  · intro t u ht hu h
    have hreason := reason_eq_of_render_eq ht hu h
    refine ⟨?_, hreason⟩
    rw [← shown_reason, ← shown_reason, hreason]
  · intro t ht c d h
    exact connective_eq_of_render ht h
  · intro order look r t hplain ht
    exact Rule.legible_of_explain hplain ht

/-- A trace with groups of one item has the line of a trace without them, and so their reason. Two `OR`
stand at one level. -/
theorem Trace.render_unambiguous_of_bare_items : ∃ t u : Trace,
    t = .group .or
      [.group .and [.comparison "a" .equal none (.text "x") false] 1 false,
        .group .and
          [.comparison "b" .equal (some (.boolean true)) (.boolean true) true,
            .comparison "a" .equal none (.text "y") false] 0 false,
        .group .or [.comparison "b" .notEqual (some (.boolean true)) (.boolean false) true] 1 true]
      0 true ∧
    u = .group .or
      [.comparison "a" .equal none (.text "x") false,
        .group .and
          [.comparison "b" .equal (some (.boolean true)) (.boolean true) true,
            .comparison "a" .equal none (.text "y") false] 0 false,
        .comparison "b" .notEqual (some (.boolean true)) (.boolean false) true]
      0 true ∧
    ((Rule.grouped .or
      [⟨.and, [⟨"a", .equal, .text "x"⟩, ⟨"b", .equal, .text "x"⟩]⟩,
        ⟨.and, [⟨"b", .equal, .boolean true⟩, ⟨"a", .equal, .text "y"⟩]⟩,
        ⟨.or, [⟨"b", .notEqual, .boolean false⟩, ⟨"a", .equal, .text "x"⟩]⟩]).explain
      .reject).run (fun k => if k = "b" then some (.boolean true) else none) = .ok t ∧
    t.Legible ∧ u.Legible ∧ t.render = u.render ∧ t.shown = u.shown ∧ t.reason = u.reason ∧
    ∃ c d, AtOneLevel c d t.render.toList ∧ c = d := by
  obtain ⟨hsame, hlevel, hexplain⟩ := render_unambiguous
  have hline : ∀ (r : Rule) (look : FieldLookup) (t u : Trace),
      (∀ c ∈ r.conditions, c.Plain look) → (r.explain .reject).run look = .ok t → u.Legible →
      t.render = u.render → AtOneLevel .or .or t.render.toList →
      (r.explain .reject).run look = .ok t ∧ t.Legible ∧ u.Legible ∧ t.render = u.render ∧
        t.shown = u.shown ∧ t.reason = u.reason ∧
        ∃ c d, AtOneLevel c d t.render.toList ∧ c = d := by
    intro r look t u hplain hrun hu h hlevels
    have ht := hexplain .reject look r t hplain hrun
    obtain ⟨hshown, hreason⟩ := hsame t u ht hu h
    exact ⟨hrun, ht, hu, h, hshown, hreason, .or, .or, hlevels, hlevel t ht .or .or hlevels⟩
  have hwords : Plain "a".toList ∧ Plain "b".toList ∧ Plain "x".toList ∧ Plain "y".toList := by
    simp [Plain, delimiters]
  obtain ⟨ha, hb, hx, hy⟩ := hwords
  have hnone : ∀ v ∈ none, Value.Plain v := by simp
  have htrue : ∀ v ∈ some (.boolean true), Value.Plain v := by simp [Value.Plain]
  refine ⟨_, _, rfl, rfl, hline _ _ _ _ ?_ rfl ?_ rfl ?_⟩
  · intro c hc
    simp only [Rule.conditions, List.flatMap_cons, List.flatMap_nil, List.append_nil,
      List.cons_append, List.nil_append, List.mem_cons, List.not_mem_nil, or_false] at hc
    rcases hc with rfl | rfl | rfl | rfl | rfl | rfl
    · exact ⟨ha, hnone, hx⟩
    · exact ⟨hb, htrue, hx⟩
    · exact ⟨hb, htrue, trivial⟩
    · exact ⟨ha, hnone, hy⟩
    · exact ⟨hb, htrue, trivial⟩
    · exact ⟨ha, hnone, hx⟩
  · refine .group (by simp) (List.forall_mem_cons.2 ⟨.comparison ha hnone hx, ?_⟩)
    refine List.forall_mem_cons.2 ⟨.group (by simp) (List.forall_mem_cons.2 ⟨?_, ?_⟩), ?_⟩
    · exact .comparison hb htrue trivial
    · exact List.forall_mem_singleton.2 (.comparison ha hnone hy)
    · exact List.forall_mem_singleton.2 (.comparison hb htrue trivial)
  · refine ⟨"$a (was undefined) == \"x\"".toList,
      "($b (was true) == true AND $a (was undefined) == \"y\")".toList,
      "$b (was true) != false".toList, by decide, ?_⟩
    rw [toList_render]
    rfl

end Workflow
