import Workflow.Proofs.Halting

/-! Warnings about end flags. A task whose flag disagrees with its link ends every run that comes to
it, so a run can warn only of the element where it halts. A strict build refuses the first such task,
and what it accepts never warns. -/

namespace Workflow

theorem Warning.of?_eq_none_iff {e : Element} :
    Warning.of? e = none ↔ ∀ t, e.kind = .task t → t.endFlagConsistent = true := by
  unfold Warning.of? Element.task?
  cases e.kind with
  | gateway w => simp
  | task t => cases ht : t.next <;> cases he : t.isEnd <;> simp [Task.endFlagConsistent, ht, he]

namespace Engine

theorem firstInconsistent?_eq_none_iff {p : Definition} :
    firstInconsistent? p = none ↔
      ∀ e ∈ p.elements, ∀ t, e.kind = .task t → t.endFlagConsistent = true := by
  rw [firstInconsistent?, List.find?_eq_none]
  refine forall₂_congr fun e _ => ?_
  rw [← Warning.of?_eq_none_iff, Bool.not_eq_true, Option.isSome_eq_false_iff,
    Option.isNone_iff_eq_none]

theorem run_resolveNext_of_task {g : Engine} {n : String} {e : Element} {t : Task}
    (he : g.element n = .ok e) (hk : e.kind = .task t) (look : FieldLookup) :
    (g.resolveNext n).run look = .ok t.next := by
  unfold resolveNext
  rw [he, Query.bind_eq, Query.bind_answer_ok, hk]
  rfl

end Engine

section

variable {σ : Type} {g : Engine} {x : Executor σ}

/-- Where a run goes on, there is nothing to warn of. -/
theorem Visit.LeadsTo.warning_eq_none {n m c s s'} {v : Visit} (hm : v.Made g x n c s s')
    (hl : v.LeadsTo g m) : Warning.of? v.element = none := by
  rw [Warning.of?_eq_none_iff]
  intro t hk
  have hend := hl.goesOn t hk
  have hnext := hl.next
  rw [hm.name_eq, Engine.run_resolveNext_of_task hm.element_eq hk] at hnext
  simp [Task.endFlagConsistent, hend, Except.ok.inj hnext]

namespace Engine

theorem Path.warnings_eq_nil {n c s vs m c' s'} (h : g.Path x n c s vs m c' s') :
    vs.filterMap (Warning.of? ·.element) = [] := by
  rw [List.filterMap_eq_nil_iff]
  intro v hv
  obtain ⟨⟨k, c₁, s₁, s₂, hm⟩, j, hl⟩ := h.forall_made v hv
  exact hl.warning_eq_none hm

/-- A run that succeeds warns of what is wrong with its last element and of nothing else. -/
theorem warnings_of_run {s : σ} {c : Context} {o : Outcome} (h : (g.run x s c).result = .ok o) :
    ∃ e ∈ g.definition.elements, o.haltedAt = some e.name ∧
      o.warnings = (Warning.of? e).toList := by
  by_cases hone : g.definition.starts.length = 1
  · obtain ⟨e, hstart⟩ := List.length_eq_one_iff.1 hone
    obtain ⟨vs, s', ⟨ws, m, c₁, s₁, v, rfl, hp, hm, -⟩, rfl⟩ :=
      exists_walk_of_run_eq_ok (m := g.settings.maxSteps) hstart h
    refine ⟨v.element, (g.element_eq_ok_iff.1 hm.element_eq).1, ?_, ?_⟩
    · simp [Outcome.ofVisits, Outcome.haltedAt]
    · rw [Outcome.ofVisits, List.filterMap_append, hp.warnings_eq_nil, List.nil_append]
      rfl
  · rw [g.run_of_length_starts_ne_one x s c hone] at h
    cases h

end Engine

end

namespace Engine

theorem build_of_inconsistent {p : Definition} {i : Index} (h : Index.build p = .ok i)
    {s : Settings} (hs : s.strictEndFlags = true) {l r : List Element} {e : Element} {t : Task}
    (hp : p.elements = l ++ e :: r) (hk : e.kind = .task t) (he : t.endFlagConsistent = false)
    (hl : ∀ f ∈ l, ∀ u, f.kind = .task u → u.endFlagConsistent = true) :
    build p s = .error (.endFlagMismatch e.name) := by
  have hfirst : firstInconsistent? p = some e := by
    rw [firstInconsistent?, List.find?_eq_some_iff_append]
    refine ⟨?_, l, r, hp, fun f hf => ?_⟩
    · rw [Option.isSome_iff_ne_none, Ne, Warning.of?_eq_none_iff]
      intro hall
      rw [hall t hk] at he
      cases he
    · rw [Warning.of?_eq_none_iff.2 (hl f hf)]
      rfl
  rw [build_of_ok h, hs, hfirst]

theorem exists_build_strict_iff {p : Definition} {s : Settings} :
    (∃ g, build p { s with strictEndFlags := true } = .ok g) ↔
      (∃ g, build p { s with strictEndFlags := false } = .ok g) ∧
        ∀ e ∈ p.elements, ∀ t, e.kind = .task t → t.endFlagConsistent = true := by
  rw [exists_build_iff, exists_build_iff, ← firstInconsistent?_eq_none_iff]
  simp

/-- Every element of an engine built strictly is without a warning. -/
theorem warning_eq_none_of_strict {p : Definition} {s : Settings} {g : Engine}
    (h : build p s = .ok g) (hs : s.strictEndFlags = true) {e : Element}
    (he : e ∈ g.definition.elements) : Warning.of? e = none := by
  obtain ⟨rfl, -, hfirst⟩ := build_eq_ok_iff.1 h
  exact Warning.of?_eq_none_iff.2 (firstInconsistent?_eq_none_iff.1 (hfirst hs) e he)

theorem resolution_warning_eq_none_of_strict {p : Definition} {s : Settings} {g : Engine}
    (h : build p s = .ok g) (hs : s.strictEndFlags = true) {n : String} {look : FieldLookup}
    {r : Resolution} (hr : (g.resolve n).run look = .ok r) : r.warning = none := by
  cases he : g.element n with
  | error err =>
    unfold resolve at hr
    rw [he] at hr
    cases hr
  | ok e =>
    obtain ⟨r', hr', -, hw, -⟩ := g.run_resolve he look
    rw [hr] at hr'
    cases hr'
    rw [hw, warning_eq_none_of_strict h hs (g.element_eq_ok_iff.1 he).1]

/-- A run warns at most once, and just of the element where it halts if that is a task whose end flag
disagrees with its link. A strict build succeeds just if the other does and there is no such task; it
fails as the other does, or else at the first such task. Nothing that it accepts ever warns. -/
theorem warns_only_where_it_halts :
    (∀ (g : Engine) (σ : Type) (x : Executor σ) s c o, (g.run x s c).result = .ok o →
      o.warnings.length ≤ 1 ∧ ∃ e ∈ g.definition.elements, o.haltedAt = some e.name ∧
        o.warnings = (Warning.of? e).toList ∧
        (o.warnings = [] ↔ ∀ t, e.kind = .task t → t.endFlagConsistent = true)) ∧
    (∀ (p : Definition) (s : Settings),
      ((∃ g, build p { s with strictEndFlags := true } = .ok g) ↔
        (∃ g, build p { s with strictEndFlags := false } = .ok g) ∧
          ∀ e ∈ p.elements, ∀ t, e.kind = .task t → t.endFlagConsistent = true) ∧
      (∀ err, Index.build p = .error err →
        build p { s with strictEndFlags := true } = .error err ∧
        build p { s with strictEndFlags := false } = .error err) ∧
      (∀ i, Index.build p = .ok i →
        (∃ g, build p { s with strictEndFlags := false } = .ok g) ∧
        ∀ l e r t, p.elements = l ++ e :: r → e.kind = .task t → t.endFlagConsistent = false →
          (∀ f ∈ l, ∀ u, f.kind = .task u → u.endFlagConsistent = true) →
          build p { s with strictEndFlags := true } = .error (.endFlagMismatch e.name))) ∧
    ∀ p s g, build p s = .ok g → s.strictEndFlags = true →
      (∀ n look r, (g.resolve n).run look = .ok r → r.warning = none) ∧
      ∀ (σ : Type) (x : Executor σ) i c o, (g.run x i c).result = .ok o → o.warnings = [] := by
  refine ⟨fun g σ x s c o ho => ?_, fun p s => ⟨exists_build_strict_iff, fun err h =>
    ⟨build_of_error h _, build_of_error h _⟩, fun i h => ⟨⟨_, build_of_ok h _⟩,
    fun l e r t hp hk he hl => build_of_inconsistent h rfl hp hk he hl⟩⟩,
    fun p s g h hs => ⟨fun n look r hr => resolution_warning_eq_none_of_strict h hs hr,
    fun σ x i c o ho => ?_⟩⟩
  · obtain ⟨e, he, hhalted, hwarnings⟩ := warnings_of_run ho
    refine ⟨?_, e, he, hhalted, hwarnings, ?_⟩
    · rw [hwarnings, Option.length_toList]
      split <;> omega
    · rw [hwarnings, Option.toList_eq_nil_iff, Warning.of?_eq_none_iff]
  · obtain ⟨e, he, -, hwarnings⟩ := warnings_of_run ho
    rw [hwarnings, warning_eq_none_of_strict h hs he]
    rfl

/-- The run that renews ends at a task that links back to the first one, and warns of that. A strict
build refuses the renewal for that task and accepts the polling. -/
theorem warns_only_where_it_halts_of_renewal :
    (∃ o, (renewal.run (answering "") 0 .empty).result = .ok o ∧
      o.visited = ["ask", "check", "renew"] ∧ o.warnings = [.nextOnEndTask "renew" "ask"]) ∧
    build renewal.definition { strictEndFlags := true } = .error (.endFlagMismatch "renew") ∧
    Index.build ⟨"", "", [⟨"ask", "", default⟩, ⟨"ask", "", default⟩]⟩ =
      .error (.duplicateElement "ask") ∧
    build ⟨"", "", [⟨"ask", "", default⟩, ⟨"ask", "", default⟩]⟩ { strictEndFlags := true } =
      .error (.duplicateElement "ask") ∧
    ∃ g, build polling.definition { strictEndFlags := true } = .ok g ∧
      ∀ (σ : Type) (x : Executor σ) i c o, (g.run x i c).result = .ok o → o.warnings = [] := by
  obtain ⟨hruns, hbuilds, hstrict⟩ := warns_only_where_it_halts
  obtain ⟨o, ho, hvisited⟩ : ∃ o, (renewal.run (answering "") 0 .empty).result = .ok o ∧
      o.visited = ["ask", "check", "renew"] := ⟨_, rfl, rfl⟩
  obtain ⟨-, e, he, hhalted, hwarnings, -⟩ := hruns renewal Nat (answering "") 0 .empty o ho
  have hname : e.name = "renew" := by
    rw [Outcome.haltedAt, hvisited] at hhalted
    exact (Option.some.inj hhalted).symm
  have hrenew : o.warnings = [.nextOnEndTask "renew" "ask"] := by
    simp only [renewal, List.mem_cons, List.not_mem_nil, or_false] at he
    rcases he with rfl | rfl | rfl
    · simp at hname
    · simp at hname
    · exact hwarnings
  obtain ⟨-, -, hmismatch⟩ := hbuilds renewal.definition {}
  have hduplicate : Index.build ⟨"", "", [⟨"ask", "", default⟩, ⟨"ask", "", default⟩]⟩ =
      .error (.duplicateElement "ask") := rfl
  obtain ⟨-, hsame, -⟩ := hbuilds ⟨"", "", [⟨"ask", "", default⟩, ⟨"ask", "", default⟩]⟩ {}
  obtain ⟨g, hg⟩ : ∃ g, build polling.definition { strictEndFlags := true } = .ok g := ⟨_, rfl⟩
  refine ⟨⟨o, ho, hvisited, hrenew⟩, ?_, hduplicate, (hsame _ hduplicate).1, g, hg,
    (hstrict _ _ g hg rfl).2⟩
  exact (hmismatch renewal.index rfl).2 (renewal.definition.elements.take 2) _ [] _ rfl rfl rfl
    (by simp [renewal, Task.endFlagConsistent])

end Engine

end Workflow
