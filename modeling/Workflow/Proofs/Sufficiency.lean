import Workflow.Proofs.ProjectionSetting

/-! A trace explains its outcome. Data in which every comparison of the trace finds what it found
then are decided alike, so nothing that the trace leaves out has a say in the outcome or in what
follows. -/

namespace Workflow

/-- The data have under every field compared what the trace found there. -/
def Trace.FoundIn (t : Trace) (look : FieldLookup) : Prop := ∀ e ∈ t.leaves, look e.1 = e.2

theorem Query.Records.foundIn {look : FieldLookup} {q : Query Trace} (h : q.Records look)
    {t : Trace} (ht : q.run look = .ok t) : t.FoundIn look := by
  intro e he
  rw [h t ht] at he
  obtain ⟨k, -, rfl⟩ := List.mem_map.1 he
  rfl

theorem Query.Records.fields {look : FieldLookup} {q : Query Trace} (h : q.Records look) {t : Trace}
    (ht : q.run look = .ok t) : t.leaves.map Prod.fst = q.reads look := by
  rw [h t ht, List.map_map]
  exact List.map_id _

/-- A query that records what it reads has one answer over all data that agree with the record. -/
theorem Query.Records.run_of_foundIn {look look' : FieldLookup} {q : Query Trace}
    (h : q.Records look) {t : Trace} (ht : q.run look = .ok t) (hfound : t.FoundIn look') :
    q.run look' = .ok t ∧ q.reads look' = q.reads look := by
  rw [Trace.FoundIn, h t ht] at hfound
  have hagree : ∀ k ∈ q.reads look, look k = look' k := fun k hk =>
    (hfound (k, look k) (List.mem_map_of_mem hk)).symm
  obtain ⟨hrun, hreads⟩ := Query.run_congr hagree
  exact ⟨hrun.trans ht, hreads⟩

namespace Rule

theorem explain_of_foundIn {order : TextOrder} {r : Rule} {look look' : FieldLookup} {t : Trace}
    (ht : (r.explain order).run look = .ok t) (hfound : t.FoundIn look') :
    (r.explain order).run look' = .ok t ∧
      (r.explain order).reads look' = t.leaves.map Prod.fst := by
  have hrecords := explain_records order look r
  rw [hrecords.fields ht]
  exact hrecords.run_of_foundIn ht hfound

theorem decide_of_explain {order : TextOrder} {r : Rule} {look : FieldLookup} {t : Trace}
    (ht : (r.explain order).run look = .ok t) :
    (r.decide order).run look = .ok t.outcome ∧
      (r.decide order).reads look = t.leaves.map Prod.fst := by
  rw [← explain_map_outcome, Query.run_map, Query.reads_map, ht,
    (explain_records order look r).fields ht]
  exact ⟨rfl, rfl⟩

end Rule

namespace Engine

theorem run_resolve_of_gateway {g : Engine} {e : Element} (he : e ∈ g.definition.elements)
    {w : Gateway} (hk : e.kind = .gateway w) {look : FieldLookup} {t : Trace}
    (ht : (w.rule.explain g.settings.textOrder).run look = .ok t) :
    (g.resolve e.name).run look =
      .ok ⟨e.name, w.successor t.outcome, .gateway t.outcome t, none⟩ := by
  unfold resolve
  rw [g.element_eq_ok_iff.2 ⟨he, rfl⟩, Query.bind_eq, Query.bind_answer_ok, hk]
  refine Query.run_bind_eq_ok.2 ⟨t, ?_, rfl⟩
  rw [g.run_explain, ht]

end Engine

/-- Whatever else the data are, if they have what a trace found then the rule is explained by that
trace and decided with its outcome, the fields of its comparisons are all that is read, and a
gateway with that rule leads on to the same element. -/
theorem Rule.trace_suffices {order : TextOrder} {r : Rule} {look look' : FieldLookup} {t : Trace}
    (ht : (r.explain order).run look = .ok t) (hfound : ∀ e ∈ t.leaves, look' e.1 = e.2) :
    (r.explain order).run look' = .ok t ∧
    (r.decide order).run look' = .ok t.outcome ∧
    (r.explain order).reads look' = (r.explain order).reads look ∧
    (r.decide order).reads look' = (r.decide order).reads look ∧
    (r.decide order).reads look' = (r.explain order).reads look' ∧
    ∀ (g : Engine) (e : Element) (w : Gateway), e ∈ g.definition.elements → e.kind = .gateway w →
      w.rule = r → g.settings.textOrder = order →
      (g.resolve e.name).run look' = (g.resolve e.name).run look ∧
      (g.resolveNext e.name).run look' = .ok (w.successor t.outcome) := by
  obtain ⟨-, hreads⟩ := explain_of_foundIn ht ((explain_records order look r).foundIn ht)
  obtain ⟨ht', hreads'⟩ := explain_of_foundIn ht hfound
  obtain ⟨-, hdecide⟩ := decide_of_explain ht
  obtain ⟨houtcome, hdecide'⟩ := decide_of_explain ht'
  refine ⟨ht', houtcome, hreads'.trans hreads.symm, hdecide'.trans hdecide.symm,
    hdecide'.trans hreads'.symm, ?_⟩
  rintro g e w he hk rfl rfl
  have hnext := Engine.run_resolve_of_gateway he hk ht'
  refine ⟨hnext.trans (Engine.run_resolve_of_gateway he hk ht).symm, ?_⟩
  rw [Engine.run_resolveNext, hnext]
  rfl

/-- The second reading of the state settles the outcome. Fields that are skipped may hold anything,
and so may those that the gateway of the renewal does not ask for. -/
theorem Rule.trace_suffices_of_state :
    (∃ t, ((grouped .or [⟨.and, [⟨"state", .equal, .text "done"⟩, ⟨"owner", .equal, .text "me"⟩]⟩,
        ⟨.or, [⟨"state", .greaterThan, .text "done"⟩, ⟨"owner", .notEqual, .text "me"⟩]⟩,
        ⟨.and, []⟩]).explain .lexicographic).run
        (fun k => if k = "state" then some (.text "open") else none) = .ok t ∧
      t.leaves = [("state", some (.text "open")), ("state", some (.text "open"))] ∧
      ((grouped .or [⟨.and, [⟨"state", .equal, .text "done"⟩, ⟨"owner", .equal, .text "me"⟩]⟩,
        ⟨.or, [⟨"state", .greaterThan, .text "done"⟩, ⟨"owner", .notEqual, .text "me"⟩]⟩,
        ⟨.and, []⟩]).explain .lexicographic).run
        (fun k => some (.text (if k = "state" then "open" else "me"))) = .ok t) ∧
    (Engine.renewal.resolveNext "check").run (fun _ => some (.text "yes")) =
      .ok (some "renew") := by
  obtain ⟨t, ht, hleaves⟩ : ∃ t, ((grouped .or
      [⟨.and, [⟨"state", .equal, .text "done"⟩, ⟨"owner", .equal, .text "me"⟩]⟩,
        ⟨.or, [⟨"state", .greaterThan, .text "done"⟩, ⟨"owner", .notEqual, .text "me"⟩]⟩,
        ⟨.and, []⟩]).explain .lexicographic).run
        (fun k => if k = "state" then some (.text "open") else none) = .ok t ∧
      t.leaves = [("state", some (.text "open")), ("state", some (.text "open"))] := ⟨_, rfl, rfl⟩
  refine ⟨⟨t, ht, hleaves, (trace_suffices ht ?_).1⟩, ?_⟩
  · rw [hleaves]
    simp
  · have hyes : ((single ⟨"answer", .equal, .text "yes"⟩).explain .lexicographic).run
        (fun k => if k = "answer" then some (.text "yes") else none) = .ok _ := rfl
    have hany := @trace_suffices _ _ _ (fun _ => some (.text "yes")) _ hyes (by simp [Trace.leaves])
    obtain ⟨-, -, -, -, -, hnext⟩ := hany
    exact (hnext Engine.renewal _ _ (List.mem_cons_of_mem _ List.mem_cons_self) rfl rfl rfl).2

end Workflow
