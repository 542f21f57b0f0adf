import Workflow.Proofs.Explanation
import Workflow.Proofs.Formula
import Workflow.Proofs.Index
import Workflow.Proofs.Projection

/-! Resolving an element of a process that has an index. It succeeds for every element and whatever
the data, and leads to an element again. The resolution with all details and the one without are
one query up to what is told. -/

namespace Workflow.Engine

theorem wellFormed (g : Engine) : g.definition.WellFormed := (Index.build_eq_ok_iff.1 g.indexed).1

theorem element_eq_ok_iff (g : Engine) {n : String} {e : Element} :
    g.element n = .ok e ↔ e ∈ g.definition.elements ∧ e.name = n := Index.get_eq_ok_iff g.indexed

theorem element_eq_error_iff (g : Engine) {n : String} {err : EvaluationError} :
    g.element n = .error err ↔ n ∉ g.definition.names ∧ err = .unknownElement n :=
  Index.get_eq_error_iff g.indexed

theorem build_of_error {p : Definition} {err : DefinitionError} (h : Index.build p = .error err)
    (s : Settings) : build p s = .error err := by
  unfold build
  split
  · rename_i e he
    rw [h] at he
    cases he
    rfl
  · rename_i i hi
    rw [h] at hi
    cases hi

theorem build_of_ok {p : Definition} {i : Index} (h : Index.build p = .ok i) (s : Settings) :
    build p s = match s.strictEndFlags, firstInconsistent? p with
      | true, some e => .error (.endFlagMismatch e.name)
      | _, _ => .ok ⟨p, s, i, h⟩ := by
  unfold build
  split
  · rename_i e he
    rw [h] at he
    cases he
  · rename_i j hj
    have hij : j = i := by
      rw [h] at hj
      cases hj
      rfl
    subst hij
    rfl

theorem build_eq_ok_iff {p : Definition} {s : Settings} {g : Engine} :
    build p s = .ok g ↔ g.definition = p ∧ g.settings = s ∧
      (s.strictEndFlags = true → firstInconsistent? p = none) := by
  constructor
  · intro h
    cases hi : Index.build p with
    | error err =>
      rw [build_of_error hi] at h
      cases h
    | ok i =>
      rw [build_of_ok hi] at h
      split at h
      · cases h
      · rename_i hok
        cases h
        exact ⟨rfl, rfl, fun hs => Option.eq_none_iff_forall_ne_some.2 fun e => hok e hs⟩
  · rintro ⟨rfl, rfl, hs⟩
    rw [build_of_ok g.indexed]
    split
    · rename_i e hstrict he
      rw [hs hstrict] at he
      cases he
    · rfl

theorem exists_build_iff {p : Definition} {s : Settings} :
    (∃ g, build p s = .ok g) ↔
      p.WellFormed ∧ (s.strictEndFlags = true → firstInconsistent? p = none) := by
  constructor
  · rintro ⟨g, hg⟩
    obtain ⟨rfl, rfl, hs⟩ := build_eq_ok_iff.1 hg
    exact ⟨g.wellFormed, hs⟩
  · intro ⟨hp, hs⟩
    have hi : Index.build p = .ok _ := Index.build_eq_ok_iff.2 ⟨hp, rfl⟩
    exact ⟨⟨p, s, _, hi⟩, build_eq_ok_iff.2 ⟨rfl, rfl, hs⟩⟩

theorem build_eq_ok {p : Definition} {s : Settings} {g : Engine} (h : build p s = .ok g) :
    g.definition = p ∧ g.settings = s := by
  obtain ⟨hp, hs, -⟩ := build_eq_ok_iff.1 h
  exact ⟨hp, hs⟩

theorem explain_map_outcome (g : Engine) (r : Rule) :
    (g.explain r).map Trace.outcome = g.decide r := by
  rw [explain, projecting_map, Rule.explain_map_outcome, decide]

theorem exists_run_explain (g : Engine) {r : Rule} (h : r.wellFormed = true) (look : FieldLookup) :
    ∃ t, (g.explain r).run look = .ok t := by
  obtain ⟨data, hd⟩ := g.run_projecting r (r.explain g.settings.textOrder) look
  have hdecide := Rule.run_decide_of_wellFormed g.settings.textOrder data h
  rw [← Rule.explain_map_outcome] at hdecide
  obtain ⟨t, ht, -⟩ := Query.run_map_eq_ok.1 hdecide
  exact ⟨t, by rw [explain, hd, ht]⟩

theorem resolve_map_next (g : Engine) (n : String) :
    (g.resolve n).map Resolution.next = g.resolveNext n := by
  unfold resolve resolveNext
  cases g.element n with
  | error err => rfl
  | ok e =>
    simp only [Query.bind_eq, Query.bind_answer_ok]
    cases e.kind with
    | task t => rfl
    | gateway w =>
      simp only [Query.map_bind, ← explain_map_outcome, Query.bind_map]
      rfl

theorem run_resolveNext (g : Engine) (n : String) (look : FieldLookup) :
    (g.resolveNext n).run look = ((g.resolve n).run look).map Resolution.next := by
  rw [← resolve_map_next, Query.run_map]

/-- What the resolution of an element tells, whatever the data. -/
theorem run_resolve (g : Engine) {n : String} {e : Element} (he : g.element n = .ok e)
    (look : FieldLookup) : ∃ r, (g.resolve n).run look = .ok r ∧ r.source = n ∧
      r.warning = Warning.of? e ∧ ∀ m, r.next = some m → m ∈ e.successors := by
  obtain ⟨hmem, hname⟩ := g.element_eq_ok_iff.1 he
  unfold resolve
  rw [he, Query.bind_eq, Query.bind_answer_ok]
  cases hk : e.kind with
  | task t =>
    refine ⟨_, rfl, hname, rfl, fun m hm => ?_⟩
    simp only [Element.successors, hk, Option.mem_toList]
    exact hm
  | gateway w =>
    obtain ⟨t, ht⟩ := g.exists_run_explain (g.wellFormed.rules e hmem w hk) look
    refine ⟨_, Query.run_bind_eq_ok.2 ⟨t, ht, rfl⟩, hname, ?_, fun m hm => ?_⟩
    · simp [Warning.of?, Element.task?, hk]
    · simp only [Element.successors, hk, List.mem_append, Option.mem_toList]
      simp only [Gateway.successor] at hm
      split at hm
      · exact Or.inl hm
      · exact Or.inr hm

theorem run_resolve_of_mem (g : Engine) {n : String} (hn : n ∈ g.definition.names)
    (look : FieldLookup) : ∃ r, (g.resolve n).run look = .ok r ∧
      ∀ m, r.next = some m → m ∈ g.definition.names := by
  obtain ⟨e, he, hname⟩ := Definition.mem_names_iff.1 hn
  obtain ⟨r, hr, -, -, hnext⟩ := g.run_resolve (g.element_eq_ok_iff.2 ⟨he, hname⟩) look
  exact ⟨r, hr, fun m hm => g.wellFormed.links e he m (hnext m hm)⟩

theorem run_resolveNext_of_mem (g : Engine) {n : String} (hn : n ∈ g.definition.names)
    (look : FieldLookup) : ∃ next, (g.resolveNext n).run look = .ok next ∧
      ∀ m, next = some m → m ∈ g.definition.names := by
  obtain ⟨r, hr, hnext⟩ := g.run_resolve_of_mem hn look
  exact ⟨r.next, by rw [run_resolveNext, hr]; rfl, hnext⟩

theorem run_resolve_of_not_mem (g : Engine) {n : String} (hn : n ∉ g.definition.names)
    (look : FieldLookup) : (g.resolve n).run look = .error (.unknownElement n) := by
  unfold resolve
  rw [g.element_eq_error_iff.2 ⟨hn, rfl⟩]
  rfl

/-- One of two elements follows the other for some data, as one kind of resolution tells. -/
def Follows (g : Engine) (n m : String) : Prop :=
  ∃ look, (g.resolveNext n).run look = .ok (some m) ∨
    ∃ r, (g.resolve n).run look = .ok r ∧ r.next = some m

theorem Follows.mem_names {g : Engine} {n m : String} (h : g.Follows n m)
    (hn : n ∈ g.definition.names) : m ∈ g.definition.names := by
  obtain ⟨look, h | ⟨r, hr, hm⟩⟩ := h
  · obtain ⟨next, hnext, hin⟩ := g.run_resolveNext_of_mem hn look
    rw [hnext] at h
    cases h
    exact hin m rfl
  · obtain ⟨q, hq, hin⟩ := g.run_resolve_of_mem hn look
    rw [hq] at hr
    cases hr
    exact hin m hm

end Workflow.Engine
