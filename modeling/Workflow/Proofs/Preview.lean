import Workflow.Proofs.Sufficiency
import Workflow.Proofs.Warnings

/-! Previewing a step and taking it. The resolution that tells how a successor was chosen, the one that
gives only the successor, and the one for many data at once agree on every element. -/

namespace Workflow

theorem Warning.of?_eq_some_iff {e : Element} {t : Task} (hk : e.kind = .task t) {w : Warning} :
    Warning.of? e = some w ↔
      (t.next = none ∧ t.isEnd = false ∧ w = missingNext e.name) ∨
        ∃ m, t.next = some m ∧ t.isEnd = true ∧ w = nextOnEndTask e.name m := by
  unfold Warning.of? Element.task?
  rw [hk, Option.bind_some]
  cases t.next <;> cases t.isEnd <;> simp [@eq_comm _ w]

namespace Engine

/-- A task is resolved without any data. -/
theorem resolve_of_task {g : Engine} {n : String} {e : Element} {t : Task}
    (he : g.element n = .ok e) (hk : e.kind = .task t) :
    g.resolve n = .answer (.ok ⟨n, t.next, .task, Warning.of? e⟩) := by
  unfold resolve
  rw [he, Query.bind_eq, Query.bind_answer_ok, hk, (g.element_eq_ok_iff.1 he).2]
  rfl

theorem resolveNext_of_task {g : Engine} {n : String} {e : Element} {t : Task}
    (he : g.element n = .ok e) (hk : e.kind = .task t) :
    g.resolveNext n = .answer (.ok t.next) := by
  rw [← resolve_map_next, resolve_of_task he hk]
  rfl

theorem exists_explain_of_gateway {g : Engine} {e : Element} (he : e ∈ g.definition.elements)
    {w : Gateway} (hk : e.kind = .gateway w) (look : FieldLookup) :
    ∃ t, (w.rule.explain g.settings.textOrder).run look = .ok t := by
  obtain ⟨t, ht⟩ := g.exists_run_explain (g.wellFormed.rules e he w hk) look
  exact ⟨t, g.run_explain w.rule look ▸ ht⟩

theorem getElem?_resolveBatch (g : Engine) (n : String) (cs : List Context) (i : Nat) :
    (g.resolveBatch n cs)[i]? = cs[i]?.map fun c => (g.resolveNext n).run c.lookup :=
  List.getElem?_map

/-- The two resolutions of an element fail alike and else lead to the same element. For a gateway the
fuller one carries the trace of its rule, whose outcome chooses the link, and no warning; for a task it
follows the link and reads no field, and warns just of a link that disagrees with the end flag. Many
data are resolved one by one, in their order. -/
theorem resolutions_agree (g : Engine) (n : String) :
    (∀ look err, (g.resolve n).run look = .error err ↔
      (g.resolveNext n).run look = .error err) ∧
    (∀ look r, (g.resolve n).run look = .ok r →
      (g.resolveNext n).run look = .ok r.next ∧ r.source = n) ∧
    (∀ look next, (g.resolveNext n).run look = .ok next →
      ∃ r, (g.resolve n).run look = .ok r ∧ r.next = next) ∧
    (∀ e w, g.element n = .ok e → e.kind = .gateway w → ∀ look, ∃ t,
      (w.rule.explain g.settings.textOrder).run look = .ok t ∧
      (g.resolve n).run look = .ok ⟨n, if t.outcome then w.nextIfTrue else w.nextIfFalse,
        .gateway t.outcome t, none⟩) ∧
    (∀ e t, g.element n = .ok e → e.kind = .task t → ∃ warning,
      (∀ look, (g.resolve n).run look = .ok ⟨n, t.next, .task, warning⟩ ∧
        (g.resolve n).reads look = [] ∧ (g.resolveNext n).reads look = []) ∧
      (warning = none ↔ t.endFlagConsistent = true) ∧
      ∀ w, warning = some w ↔
        (t.next = none ∧ t.isEnd = false ∧ w = .missingNext n) ∨
          ∃ m, t.next = some m ∧ t.isEnd = true ∧ w = .nextOnEndTask n m) ∧
    ∀ cs : List Context, (g.resolveBatch n cs).length = cs.length ∧
      ∀ (i : Nat) (c : Context), cs[i]? = some c →
        (g.resolveBatch n cs)[i]? = some ((g.resolveNext n).run c.lookup) := by
  refine ⟨fun look err => ?_, fun look r hr => ?_, fun look next hnext => ?_,
    fun e w he hk look => ?_, fun e t he hk => ?_, fun cs => ⟨?_, fun i c hc => ?_⟩⟩
  · rw [← resolve_map_next, Query.run_map_eq_error]
  · refine ⟨by rw [run_resolveNext, hr]; rfl, ?_⟩
    cases he : g.element n with
    | error err =>
      unfold resolve at hr
      rw [he] at hr
      cases hr
    | ok e =>
      obtain ⟨r', hr', hsource, -⟩ := g.run_resolve he look
      rw [hr] at hr'
      cases hr'
      exact hsource
  · rw [← resolve_map_next] at hnext
    exact Query.run_map_eq_ok.1 hnext
  · obtain ⟨hmem, rfl⟩ := g.element_eq_ok_iff.1 he
    obtain ⟨t, ht⟩ := exists_explain_of_gateway hmem hk look
    exact ⟨t, ht, run_resolve_of_gateway hmem hk ht⟩
  · obtain ⟨-, rfl⟩ := g.element_eq_ok_iff.1 he
    refine ⟨Warning.of? e, fun look => ?_, ?_, fun w => Warning.of?_eq_some_iff hk⟩
    · rw [resolve_of_task he hk, resolveNext_of_task he hk]
      exact ⟨rfl, rfl, rfl⟩
    · rw [Warning.of?_eq_none_iff, hk]
      simp
  · exact List.length_map _
  · rw [getElem?_resolveBatch, hc]
    rfl

/-- The gateway of the renewal, with its field read beforehand, leads on for a yes alone, and the end
task that links back is resolved with a warning. -/
theorem resolutions_agree_of_renewal :
    ((renewal.withProjection true).resolve "lost").run (fun _ => none) =
      .error (.unknownElement "lost") ∧
    (∃ t, ((renewal.withProjection true).resolve "check").run
        (fun k => if k = "answer" then some (.text "yes") else none) =
        .ok ⟨"check", some "renew", .gateway true t, none⟩ ∧ t.outcome = true) ∧
    ((renewal.withProjection true).resolve "renew").run (fun _ => none) =
      .ok ⟨"renew", some "ask", .task, some (.nextOnEndTask "renew" "ask")⟩ ∧
    (renewal.withProjection true).resolveBatch "check"
      [.empty, .ofList [("answer", .text "yes")]] = [.ok none, .ok (some "renew")] := by
  obtain ⟨hlost, -⟩ := (renewal.withProjection true).resolutions_agree "lost"
  obtain ⟨-, -, -, hgateway, -, hbatch⟩ := (renewal.withProjection true).resolutions_agree "check"
  obtain ⟨-, -, -, -, htask, -⟩ := (renewal.withProjection true).resolutions_agree "renew"
  have hunknown : ((renewal.withProjection true).resolveNext "lost").run (fun _ => none) =
      .error (.unknownElement "lost") := rfl
  have hyes : ((renewal.withProjection true).resolveNext "check").run
      (Context.lookup (.ofList [("answer", .text "yes")])) = .ok (some "renew") := rfl
  have hnone : ((renewal.withProjection true).resolveNext "check").run
      (Context.lookup .empty) = .ok none := rfl
  refine ⟨(hlost _ _).2 hunknown, ?_, ?_, ?_⟩
  · obtain ⟨t, ht, hresolve⟩ := hgateway _ _ rfl rfl
      (fun k => if k = "answer" then some (.text "yes") else none)
    cases ht
    exact ⟨_, hresolve, rfl⟩
  · obtain ⟨warning, hresolve, -, hwarning⟩ := htask _ _ rfl rfl
    rw [(hresolve _).1, (hwarning _).2 (.inr ⟨"ask", rfl, rfl, rfl⟩)]
  · obtain ⟨hlength, hitem⟩ := hbatch [.empty, .ofList [("answer", .text "yes")]]
    refine List.ext_getElem? fun i => ?_
    match i with
    | 0 => rw [hitem 0 _ rfl, hnone]; rfl
    | 1 => rw [hitem 1 _ rfl, hyes]; rfl
    | i + 2 =>
      rw [List.getElem?_eq_none (by rw [hlength]; exact Nat.le_add_left 2 i)]
      rfl

end Engine

end Workflow
