import Workflow.Proofs.Explanation
import Workflow.Proofs.Keyed
import Workflow.Proofs.Projection

/-! A rule reads no fields but those of its conditions. So it is decided and explained alike over the
data and over the part of them that is read beforehand, in whatever order that is read. -/

namespace Workflow

namespace Connective

variable {α : Type}

theorem mem_reads_scanTraced {c : Connective} {explain : α → Query Trace} {look : FieldLookup}
    {k : String} {l : List α} (h : k ∈ (c.scanTraced explain l).reads look) :
    ∃ a ∈ l, k ∈ (explain a).reads look := by
  induction l with
  | nil => cases h
  | cons a r ih =>
    rw [scanTraced_cons] at h
    rcases Query.mem_reads_bind h with h | ⟨t, -, h⟩
    · exact ⟨a, List.mem_cons_self, h⟩
    · split at h
      · cases h
      · rcases Query.mem_reads_bind h with h | ⟨s, -, h⟩
        · obtain ⟨b, hb, hk⟩ := ih h
          exact ⟨b, List.mem_cons_of_mem _ hb, hk⟩
        · cases h

theorem mem_reads_explainAll {c : Connective} {level : GroupLevel} {explain : α → Query Trace}
    {look : FieldLookup} {k : String} {l : List α}
    (h : k ∈ (c.explainAll level explain l).reads look) :
    ∃ a ∈ l, k ∈ (explain a).reads look := by
  by_cases hl : l = []
  · subst hl
    cases h
  · rw [explainAll_of_ne_nil c level explain hl] at h
    rcases Query.mem_reads_bind h with h | ⟨s, -, h⟩
    · exact mem_reads_scanTraced h
    · cases h

end Connective

theorem Group.mem_reads_explain {order : TextOrder} {look : FieldLookup} {g : Group} {k : String}
    (h : k ∈ (g.explain order).reads look) : ∃ c ∈ g.conditions, c.field = k := by
  obtain ⟨c, hc, hk⟩ := Connective.mem_reads_explainAll h
  exact ⟨c, hc, (List.mem_singleton.1 hk).symm⟩

namespace Rule

/-- The field of some condition. -/
def RefersTo (r : Rule) (k : String) : Prop := ∃ c ∈ r.conditions, c.field = k

theorem mem_reads_explain {order : TextOrder} {look : FieldLookup} {r : Rule} {k : String}
    (h : k ∈ (r.explain order).reads look) : r.RefersTo k := by
  cases r with
  | single c => exact ⟨c, List.mem_singleton_self c, (List.mem_singleton.1 h).symm⟩
  | grouped c groups =>
    obtain ⟨g, hg, hk⟩ := Connective.mem_reads_explainAll h
    obtain ⟨d, hd, hk⟩ := Group.mem_reads_explain hk
    exact ⟨d, List.mem_flatMap.2 ⟨g, hg, hd⟩, hk⟩

theorem mem_reads_decide {order : TextOrder} {look : FieldLookup} {r : Rule} {k : String}
    (h : k ∈ (r.decide order).reads look) : r.RefersTo k := by
  rw [← explain_map_outcome, Query.reads_map] at h
  exact mem_reads_explain h

theorem mem_fields_iff {r : Rule} {k : String} : k ∈ r.fields ↔ r.RefersTo k := by
  rw [fields, Entries.mem_keys_sort, List.map_map, List.mem_map]
  rfl

theorem nodup_fields (r : Rule) : r.fields.Nodup :=
  (Entries.ascending_sort _).nodup_keys

/-- The part of the data under some names, each read once. -/
def projectAlong (ks : List String) : Query Context := do return .ofList (← readAll ks)

theorem run_projectAlong (look : FieldLookup) (ks : List String) :
    (projectAlong ks).run look =
      .ok (.ofList (ks.filterMap fun k => (look k).map fun v => (k, v))) := by
  simp [projectAlong, run_readAll, Except.bind]

theorem reads_projectAlong (look : FieldLookup) (ks : List String) :
    (projectAlong ks).reads look = ks := by
  have hall : (readAll ks).reads look = ks := by
    induction ks with
    | nil => rfl
    | cons k r ih =>
      cases h : look k with
      | none => simpa [readAll, Query.field, h] using ih
      | some v =>
        simpa [readAll, Query.field, h, Query.reads_bind, run_readAll, Except.toOption] using ih
  simp [projectAlong, Query.reads_bind, hall, run_readAll, Except.toOption]

theorem find?_projectAlong (look : FieldLookup) {ks : List String} (hks : ks.Nodup) {q : String}
    {v : Value} :
    (Keyed.ofList (ks.filterMap fun k => (look k).map fun v => (k, v))).find? q = some v ↔
      q ∈ ks ∧ look q = some v := by
  have hkeys : ((ks.filterMap fun k => (look k).map fun v => (k, v)).map Prod.fst).Nodup := by
    rw [List.map_filterMap]
    refine hks.filterMap fun a b k ha hb => ?_
    simp only [Option.mem_def, Option.map_map, Option.map_eq_some_iff, Function.comp_apply] at ha hb
    obtain ⟨-, -, rfl⟩ := ha
    obtain ⟨-, -, rfl⟩ := hb
    rfl
  rw [Keyed.find?_ofList_eq_some_iff hkeys, List.mem_filterMap]
  constructor
  · rintro ⟨k, hk, hv⟩
    obtain ⟨w, hw, heq⟩ := Option.map_eq_some_iff.1 hv
    cases heq
    exact ⟨hk, hw⟩
  · rintro ⟨hq, hv⟩
    exact ⟨q, hq, by rw [hv]; rfl⟩

/-- What is read beforehand, in any order, is what the rule refers to and the data have. -/
theorem exists_projection (r : Rule) (look : FieldLookup) :
    ∃ p : Context, (∀ q v, p.find? q = some v ↔ r.RefersTo q ∧ look q = some v) ∧
      ∀ ks : List String, ks.Nodup → (∀ k, k ∈ ks ↔ r.RefersTo k) →
        (projectAlong ks).run look = .ok p := by
  refine ⟨.ofList (r.fields.filterMap fun k => (look k).map fun v => (k, v)), fun q v => ?_,
    fun ks hks hmem => ?_⟩
  · rw [find?_projectAlong look r.nodup_fields, mem_fields_iff]
  · rw [run_projectAlong]
    congr 1
    refine Keyed.ext_find? fun q => Option.ext fun v => ?_
    rw [find?_projectAlong look hks, find?_projectAlong look r.nodup_fields, hmem, mem_fields_iff]

/-- Whatever reads nothing but what the rule refers to is alike over that part of the data. -/
theorem run_projection {α : Type} {r : Rule} {look : FieldLookup} {p : Context}
    (hp : ∀ k v, p.find? k = some v ↔ r.RefersTo k ∧ look k = some v) {q : Query α}
    (hq : ∀ k ∈ q.reads look, r.RefersTo k) : q.run p.lookup = q.run look := by
  refine (Query.run_congr fun k hk => Option.ext fun v => ?_).1
  rw [Context.lookup, hp]
  exact (and_iff_right (hq k hk)).symm

end Rule

end Workflow
