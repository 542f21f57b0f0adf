import Workflow.Engine.Basic
import Workflow.Proofs.Query

/-! Reading the fields of a rule beforehand. It never fails, so whatever depends on the rule is then
evaluated over some data, if not the data at hand. -/

namespace Workflow

namespace Rule

theorem run_readAll (look : FieldLookup) (ks : List String) :
    (readAll ks).run look = .ok (ks.filterMap fun k => (look k).map fun v => (k, v)) := by
  induction ks with
  | nil => rfl
  | cons k r ih =>
    cases h : look k with
    | none => simpa [readAll, Query.field, h] using ih
    | some v => simp [readAll, Query.field, h, ih, Except.bind]

theorem run_project (look : FieldLookup) (r : Rule) :
    r.project.run look =
      .ok (.ofList (r.fields.filterMap fun k => (look k).map fun v => (k, v))) := by
  simp [project, run_readAll, Except.bind]

end Rule

namespace Engine

variable {α β : Type}

theorem projecting_map (g : Engine) (r : Rule) (q : Query α) (f : α → β) :
    (g.projecting r q).map f = g.projecting r (q.map f) := by
  unfold projecting
  split
  · rw [Query.bind_eq, Query.bind_eq, Query.map_bind]
    congr 1
    funext c
    rw [Query.run_map]
    cases q.run c.lookup <;> rfl
  · rfl

theorem run_projecting (g : Engine) (r : Rule) (q : Query α) (look : FieldLookup) :
    ∃ data, (g.projecting r q).run look = q.run data := by
  unfold projecting
  split
  · exact ⟨_, by rw [Query.bind_eq, Query.run_bind, Rule.run_project]; rfl⟩
  · exact ⟨look, rfl⟩

end Engine

end Workflow
