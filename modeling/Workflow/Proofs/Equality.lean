import Workflow.Definition.Basic

/-! Equality by value. A process equals itself just if it compares no field with what is no number,
for that equals nothing. -/

namespace Workflow

theorem Binary64.equal_self (x : Binary64) : x.equal x = !x.isNaN := by
  simp [Binary64.equal]

/-- The value is a number that equals nothing. -/
def Value.IsNaN (v : Value) : Prop := ∃ x, v = number x ∧ x.isNaN = true

theorem Value.equal_self_iff (v : Value) : v.equal v = true ↔ ¬ v.IsNaN := by
  cases v <;> simp [Value.equal, Value.equal?, Binary64.equal_self, Value.IsNaN]

theorem equalLists_self_iff {α : Type} (equal : α → α → Bool) (l : List α) :
    equalLists equal l l = true ↔ ∀ a ∈ l, equal a a = true := by
  induction l with
  | nil => simp [equalLists]
  | cons a r ih => simp [equalLists, ih]

theorem Condition.equal_self_iff (c : Condition) : c.equal c = true ↔ ¬ c.literal.IsNaN := by
  simp [Condition.equal, Value.equal_self_iff]

theorem Group.equal_self_iff (g : Group) :
    g.equal g = true ↔ ∀ c ∈ g.conditions, ¬ c.literal.IsNaN := by
  simp [Group.equal, equalLists_self_iff, Condition.equal_self_iff]

theorem Rule.equal_self_iff (r : Rule) :
    r.equal r = true ↔ ∀ c ∈ r.conditions, ¬ c.literal.IsNaN := by
  cases r with
  | single c => simp [Rule.equal, Rule.conditions, Condition.equal_self_iff]
  | grouped c groups =>
    simp only [Rule.equal, Rule.conditions, decide_true, Bool.true_and, equalLists_self_iff,
      Group.equal_self_iff, List.mem_flatMap]
    exact ⟨fun h d ⟨g, hg, hd⟩ => h g hg d hd, fun h g hg d hd => h d ⟨g, hg, hd⟩⟩

/-- The conditions of all gateways. -/
def Definition.conditions (p : Definition) : List Condition :=
  p.elements.flatMap fun e => e.gateway?.toList.flatMap fun w => w.rule.conditions

theorem Element.equal_self_iff (e : Element) :
    e.equal e = true ↔ ∀ w ∈ e.gateway?, ∀ c ∈ w.rule.conditions, ¬ c.literal.IsNaN := by
  unfold Element.equal Element.gateway?
  cases e.kind with
  | task t => simp [ElementKind.equal]
  | gateway w => simp [ElementKind.equal, Gateway.equal, Rule.equal_self_iff]

theorem Definition.equal_self_iff (p : Definition) :
    p.equal p = true ↔ ∀ c ∈ p.conditions, ¬ c.literal.IsNaN := by
  simp only [Definition.equal, decide_true, Bool.true_and, equalLists_self_iff,
    Element.equal_self_iff, Definition.conditions, List.mem_flatMap, Option.mem_toList]
  exact ⟨fun h c ⟨e, he, w, hw, hc⟩ => h e he w hw c hc,
    fun h e he w hw c hc => h c ⟨e, he, w, hw, hc⟩⟩

end Workflow
