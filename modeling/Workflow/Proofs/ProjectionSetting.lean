import Workflow.Proofs.Agreement
import Workflow.Proofs.Locality

/-! The setting that has the fields of a rule read before it is evaluated. With it or without, a
process gives the same answers and runs alike. -/

namespace Workflow.Engine

variable {α : Type}

theorem run_projecting_eq (g : Engine) {r : Rule} {q : Query α} {look : FieldLookup}
    (hq : ∀ k ∈ q.reads look, r.RefersTo k) : (g.projecting r q).run look = q.run look := by
  unfold projecting
  split
  · obtain ⟨p, hp, hread⟩ := r.exists_projection look
    have hproject : r.project.run look = .ok p :=
      hread r.fields r.nodup_fields fun k => Rule.mem_fields_iff
    rw [Query.bind_eq, Query.run_bind, hproject]
    exact Rule.run_projection hp hq
  · rfl

theorem run_explain (g : Engine) (r : Rule) (look : FieldLookup) :
    (g.explain r).run look = (r.explain g.settings.textOrder).run look :=
  g.run_projecting_eq fun _ => Rule.mem_reads_explain

/-- How an element is resolved depends on the element and on the order of texts. -/
theorem run_resolve_congr {g h : Engine} (horder : g.settings.textOrder = h.settings.textOrder)
    {n : String} (he : g.element n = h.element n) (look : FieldLookup) :
    (g.resolve n).run look = (h.resolve n).run look := by
  unfold resolve
  rw [he]
  cases h.element n with
  | error err => rfl
  | ok e =>
    simp only [Query.bind_eq, Query.bind_answer_ok]
    cases e.kind with
    | task t => rfl
    | gateway w => simp only [Query.run_bind, run_explain, horder]

theorem agreesAt_of_element_eq {g h : Engine}
    (horder : g.settings.textOrder = h.settings.textOrder) {n : String}
    (he : g.element n = h.element n) : g.AgreesAt h n := by
  refine ⟨he, fun look => ?_⟩
  rw [run_resolveNext, run_resolveNext, run_resolve_congr horder he]

/-- The engine with fields read beforehand, or not. -/
def withProjection (g : Engine) (b : Bool) : Engine :=
  { g with settings := { g.settings with projectFields := b } }

theorem build_withProjection {p : Definition} {s : Settings} {g : Engine} (h : build p s = .ok g)
    (b : Bool) : build p { s with projectFields := b } = .ok (g.withProjection b) := by
  obtain ⟨rfl, rfl, hstrict⟩ := build_eq_ok_iff.1 h
  exact build_eq_ok_iff.2 ⟨rfl, rfl, hstrict⟩

theorem run_resolve_withProjection (g : Engine) (b : Bool) (n : String) (look : FieldLookup) :
    ((g.withProjection b).resolve n).run look = (g.resolve n).run look :=
  run_resolve_congr (g := g.withProjection b) (h := g) rfl rfl look

theorem run_resolveNext_withProjection (g : Engine) (b : Bool) (n : String) (look : FieldLookup) :
    ((g.withProjection b).resolveNext n).run look = (g.resolveNext n).run look := by
  rw [run_resolveNext, run_resolveNext, run_resolve_withProjection]

theorem agrees_withProjection (g : Engine) (b : Bool) : (g.withProjection b).Agrees g :=
  ⟨fun _ => rfl, g.run_resolveNext_withProjection b⟩

/-- What is read beforehand is what a rule refers to and the data have, in whatever order it is read,
and each field once; the rule is decided and explained alike over it. So it makes no difference to a
process whether this is done. -/
theorem projection_changes_no_answer :
    (∀ (r : Rule) (look : FieldLookup), ∃ c : Context, r.project.run look = .ok c ∧
      (∀ k v, c.find? k = some v ↔ (∃ d ∈ r.conditions, d.field = k) ∧ look k = some v) ∧
      (r.project.reads look).Nodup ∧
      (∀ k, k ∈ r.project.reads look ↔ ∃ d ∈ r.conditions, d.field = k) ∧
      (∀ ks : List String, ks.Nodup → (∀ k, k ∈ ks ↔ ∃ d ∈ r.conditions, d.field = k) →
        (Rule.projectAlong ks).run look = .ok c ∧ (Rule.projectAlong ks).reads look = ks) ∧
      ∀ order, (r.decide order).run c.lookup = (r.decide order).run look ∧
        (r.explain order).run c.lookup = (r.explain order).run look) ∧
    ∀ (p : Definition) (s : Settings) (g : Engine), build p s = .ok g → ∀ b,
      ∃ h, build p { s with projectFields := b } = .ok h ∧
        (∀ n look, (h.resolveNext n).run look = (g.resolveNext n).run look ∧
          (h.resolve n).run look = (g.resolve n).run look) ∧
        (∀ n cs, h.resolveBatch n cs = g.resolveBatch n cs) ∧
        ∀ (σ : Type) (x : Executor σ) (i : σ) (c : Context), h.run x i c = g.run x i c := by
  refine ⟨fun r look => ?_, fun p s g hg b => ?_⟩
  · obtain ⟨c, hc, hread⟩ := r.exists_projection look
    have hreads : r.project.reads look = r.fields := Rule.reads_projectAlong look r.fields
    refine ⟨c, hread r.fields r.nodup_fields fun k => Rule.mem_fields_iff, hc,
      hreads ▸ r.nodup_fields, fun k => hreads ▸ Rule.mem_fields_iff,
      fun ks hks hmem => ⟨hread ks hks hmem, Rule.reads_projectAlong look ks⟩,
      fun order => ⟨?_, ?_⟩⟩
    · exact Rule.run_projection hc fun k => Rule.mem_reads_decide
    · exact Rule.run_projection hc fun k => Rule.mem_reads_explain
  · refine ⟨g.withProjection b, build_withProjection hg b, fun n look =>
      ⟨g.run_resolveNext_withProjection b n look, g.run_resolve_withProjection b n look⟩,
      fun n cs => ?_, fun σ x i c => (g.agrees_withProjection b).run_eq rfl rfl i c⟩
    unfold resolveBatch
    exact List.map_congr_left fun c _ => g.run_resolveNext_withProjection b n c.lookup

/-- A field that is named twice is read once, one without a value is left out, and the gateway of the
renewal then decides as before. -/
theorem projection_changes_no_answer_of_renewal :
    (∃ c : Context, (Rule.projectAlong ["state", "owner"]).run
        (fun k => if k = "state" then some (.text "open") else none) = .ok c ∧
      c.find? "state" = some (.text "open") ∧ c.find? "owner" = none) ∧
    build renewal.definition { maxSteps := 3 } = .ok renewal ∧
    ∃ h, build renewal.definition { maxSteps := 3, projectFields := true } = .ok h ∧
      h.settings.projectFields = true ∧
      (h.resolveNext "check").run (fun _ => none) = .ok none ∧
      h.run (answering "") 0 .empty = renewal.run (answering "") 0 .empty := by
  obtain ⟨hdata, hsetting⟩ := projection_changes_no_answer
  have hbuild : build renewal.definition { maxSteps := 3 } = .ok renewal := rfl
  refine ⟨?_, hbuild, ?_⟩
  · obtain ⟨c, -, hfind, -, -, hany, -⟩ := hdata (.grouped .or
      [⟨.and, [⟨"owner", .equal, .text "me"⟩, ⟨"state", .equal, .text "open"⟩]⟩,
        ⟨.or, [⟨"state", .greaterThan, .text "done"⟩]⟩])
      (fun k => if k = "state" then some (.text "open") else none)
    have hks := hany ["state", "owner"] (by decide) fun k => by
      simp [Rule.conditions, eq_comm, or_comm]
    refine ⟨c, hks.1, (hfind _ _).2 ⟨by simp [Rule.conditions], rfl⟩, ?_⟩
    cases howner : c.find? "owner" with
    | none => rfl
    | some v => cases ((hfind _ _).1 howner).2
  · obtain ⟨h, hh, hresolve, -, hrun⟩ := hsetting _ _ _ hbuild true
    refine ⟨h, hh, by rw [(build_eq_ok hh).2], ?_, hrun Nat (answering "") 0 .empty⟩
    rw [(hresolve "check" _).1]
    rfl

end Workflow.Engine
