import Mathlib.Data.Set.Card
import Workflow.Context
import Workflow.Proofs.Reordering

/-! Contexts read from JSON. The members of an object count by name: of one name the last, and null as
if it were not there. Of the members that are arrays or objects the first in order of name is reported. -/

namespace Workflow

open Json (Tree)

/-- A map has as many entries as there are names with a value. -/
theorem Keyed.size_eq_ncard {α : Type} (m : Keyed α) :
    m.size = {k | m.find? k ≠ none}.ncard := by
  have hkeys : {k | m.find? k ≠ none} = ((m.entries.map Prod.fst).toFinset : Set String) := by
    ext k
    rw [Set.mem_ofPred_eq, ← Option.isSome_iff_ne_none, Finset.mem_coe, List.mem_toFinset]
    exact Entries.find?_isSome_iff
  rw [hkeys, Set.ncard_coe_finset, List.toFinset_card_of_nodup m.ascending.nodup_keys,
    List.length_map]
  rfl

/-- An array or an object. -/
def Json.IsNested : Json → Prop
  | .array _ | .object _ => True
  | _ => False

namespace Context

/-- The entry that a member makes, if it makes one. -/
def entryOf? (m : String × Json) : Option (String × Value) := (Value.ofJson? m.2).map (m.1, ·)

theorem ofMembers_cons_of_nested {v : Json} (h : v.IsNested) (k : String)
    (r : List (String × Json)) : ofMembers ((k, v) :: r) = .error (.unsupportedValue k) := by
  cases v with
  | array | object => rfl
  | _ => cases h

theorem ofMembers_cons_of_flat {v : Json} (h : ¬ v.IsNested) (k : String)
    (r : List (String × Json)) :
    ofMembers ((k, v) :: r) = (ofMembers r).map ((entryOf? (k, v)).toList ++ ·) := by
  cases v with
  | array | object => exact absurd trivial h
  | null =>
    rw [ofMembers]
    cases ofMembers r <;> rfl
  | bool | number | text => cases hr : ofMembers r <;> simp [ofMembers, hr] <;> rfl

/-- Either no member is nested and every one makes its entry, or the first that is nested is reported. -/
theorem ofMembers_cases (ms : List (String × Json)) :
    ((∀ m ∈ ms, ¬ m.2.IsNested) ∧ ofMembers ms = .ok (ms.filterMap entryOf?)) ∨
      ∃ front k v rest, ms = front ++ (k, v) :: rest ∧ (∀ m ∈ front, ¬ m.2.IsNested) ∧ v.IsNested ∧
        ofMembers ms = .error (.unsupportedValue k) := by
  induction ms with
  | nil => exact .inl ⟨nofun, rfl⟩
  | cons m r ih =>
    obtain ⟨k, v⟩ := m
    by_cases hv : v.IsNested
    · exact .inr ⟨[], k, v, r, rfl, nofun, hv, ofMembers_cons_of_nested hv k r⟩
    · rw [ofMembers_cons_of_flat hv]
      rcases ih with ⟨hr, hread⟩ | ⟨front, q, w, rest, rfl, hfront, hw, hread⟩
      · refine .inl ⟨List.forall_mem_cons.2 ⟨hv, hr⟩, ?_⟩
        rw [hread, List.filterMap_cons]
        cases entryOf? (k, v) <;> rfl
      · refine .inr ⟨(k, v) :: front, q, w, rest, rfl, List.forall_mem_cons.2 ⟨hv, hfront⟩, hw, ?_⟩
        rw [hread]
        rfl

theorem ofMembers_of_flat {ms : List (String × Json)} (h : ∀ m ∈ ms, ¬ m.2.IsNested) :
    ofMembers ms = .ok (ms.filterMap entryOf?) := by
  rcases ofMembers_cases ms with ⟨-, hread⟩ | ⟨front, k, v, rest, rfl, -, hv, -⟩
  · exact hread
  · exact absurd hv (h (k, v) (by simp))

theorem ofJson_of_flat {ms : List (String × Json)} (h : ∀ m ∈ ms, ¬ m.2.IsNested) :
    ofJson (.object ms) = .ok (.ofList (ms.filterMap entryOf?)) := by
  rw [ofJson, ofMembers_of_flat h]
  rfl

section Ascending

variable {ms : List (String × Json)} (ordered : Entries.Ascending ms)
include ordered

theorem mem_iff_find? {f : String} {v : Json} : Entries.find? f ms = some v ↔ (f, v) ∈ ms :=
  Entries.find?_eq_some_iff ordered.nodup_keys

theorem ascending_entries : Entries.Ascending (ms.filterMap entryOf?) := by
  refine List.Pairwise.filterMap entryOf? ?_ ordered
  intro a b hab e he e' he'
  obtain ⟨_, -, rfl⟩ := Option.map_eq_some_iff.1 he
  obtain ⟨_, -, rfl⟩ := Option.map_eq_some_iff.1 he'
  exact hab

theorem lookup_ofList (f : String) :
    lookup (.ofList (ms.filterMap entryOf?)) f = (Entries.find? f ms).bind Value.ofJson? := by
  refine Option.ext fun v => ?_
  have hentries := (ascending_entries ordered).nodup_keys
  rw [lookup, Keyed.find?_ofList_eq_some_iff hentries, List.mem_filterMap, Option.bind_eq_some_iff]
  simp only [mem_iff_find? ordered, entryOf?, Option.map_eq_some_iff, Prod.mk.injEq]
  constructor
  · rintro ⟨⟨_, j⟩, hj, _, hv, rfl, rfl⟩
    exact ⟨j, hj, hv⟩
  · rintro ⟨j, hj, hv⟩
    exact ⟨(f, j), hj, v, hv, rfl, rfl⟩

end Ascending

section Texts

/-- The last member of a name, by its value. -/
def given (ms : List (String × Tree)) (f : String) : Option Json :=
  (Entries.find? f ms.reverse).bind Tree.value?

end Texts

end Context

end Workflow
