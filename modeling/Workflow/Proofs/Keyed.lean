import Mathlib.Data.List.Nodup
import Workflow.Keyed

/-! Look-ups in maps made from a list of entries. The last entry of a name counts, so where no name
occurs twice every entry does. -/

namespace Workflow

namespace Entries

variable {α : Type}

theorem find?_append (q : String) (l m : List (String × α)) :
    find? q (l ++ m) = (find? q l).or (find? q m) := by
  induction l with
  | nil => rfl
  | cons e r ih =>
    simp only [List.cons_append, find?]
    split
    · rfl
    · exact ih

theorem find?_foldl_insert (q : String) (l acc : List (String × α)) :
    find? q (l.foldl (fun acc e => insert e.1 e.2 acc) acc) =
      (find? q l.reverse).or (find? q acc) := by
  induction l generalizing acc with
  | nil => rfl
  | cons e r ih =>
    rw [List.foldl_cons, ih, find?_insert, List.reverse_cons, find?_append, Option.or_assoc]
    congr 1
    simp only [find?]
    split <;> rfl

theorem find?_sort (q : String) (l : List (String × α)) : find? q (sort l) = find? q l.reverse := by
  rw [sort, find?_foldl_insert, find?_nil, Option.or_none]

theorem mem_of_find?_eq_some {q : String} {v : α} {l : List (String × α)}
    (h : find? q l = some v) : (q, v) ∈ l := by
  induction l with
  | nil => cases h
  | cons e r ih =>
    obtain ⟨k, w⟩ := e
    simp only [find?] at h
    split at h
    · rename_i hk
      cases h
      exact hk ▸ List.mem_cons_self
    · exact List.mem_cons_of_mem _ (ih h)

theorem find?_eq_some_iff {q : String} {v : α} {l : List (String × α)}
    (h : (l.map Prod.fst).Nodup) : find? q l = some v ↔ (q, v) ∈ l := by
  refine ⟨mem_of_find?_eq_some, fun hm => ?_⟩
  induction l with
  | nil => cases hm
  | cons e r ih =>
    obtain ⟨k, w⟩ := e
    simp only [List.map_cons, List.nodup_cons] at h
    rcases List.mem_cons.1 hm with heq | hm
    · cases heq
      simp [find?]
    · have hk : k ≠ q := by
        rintro rfl
        exact h.1 (List.mem_map.2 ⟨(k, v), hm, rfl⟩)
      simp only [find?, if_neg hk]
      exact ih h.2 hm

theorem find?_reverse {q : String} {l : List (String × α)} (h : (l.map Prod.fst).Nodup) :
    find? q l.reverse = find? q l := by
  have hreversed : (l.reverse.map Prod.fst).Nodup := by
    rw [List.map_reverse]
    exact List.nodup_reverse.2 h
  refine Option.ext fun v => ?_
  rw [find?_eq_some_iff hreversed, List.mem_reverse, find?_eq_some_iff h]

theorem find?_map {β : Type} (q : String) (f : α → β) (l : List (String × α)) :
    find? q (l.map fun e => (e.1, f e.2)) = (find? q l).map f := by
  induction l with
  | nil => rfl
  | cons e r ih =>
    simp only [List.map_cons, find?]
    split
    · rfl
    · exact ih

/-- Dropping entries of other names changes nothing. -/
theorem find?_filter {q : String} {p : String × α → Bool} (h : ∀ v, p (q, v) = true)
    (l : List (String × α)) : find? q (l.filter p) = find? q l := by
  induction l with
  | nil => rfl
  | cons e r ih =>
    obtain ⟨k, v⟩ := e
    by_cases hk : k = q
    · subst hk
      rw [List.filter_cons_of_pos (h v), find?, find?, if_pos rfl, if_pos rfl]
    · rw [find?, if_neg hk, List.filter_cons]
      split
      · rw [find?, if_neg hk, ih]
      · exact ih

theorem find?_isSome_iff {q : String} {l : List (String × α)} :
    (find? q l).isSome = true ↔ q ∈ l.map Prod.fst := by
  induction l with
  | nil => simp
  | cons e r ih =>
    simp only [find?, List.map_cons, List.mem_cons]
    split
    · rename_i hk
      simp [hk]
    · rename_i hk
      rw [ih]
      exact ⟨Or.inr, fun h => h.resolve_left (Ne.symm hk)⟩

theorem mem_keys_sort {q : String} {l : List (String × α)} :
    q ∈ (sort l).map Prod.fst ↔ q ∈ l.map Prod.fst := by
  rw [← find?_isSome_iff, find?_sort, find?_isSome_iff, List.map_reverse, List.mem_reverse]

theorem Ascending.nodup_keys {l : List (String × α)} (h : Ascending l) :
    (l.map Prod.fst).Nodup := by
  rw [List.nodup_iff_pairwise_ne, List.pairwise_map]
  refine List.Pairwise.imp (fun {a b} hlt heq => ?_) h
  rw [heq] at hlt
  exact String.lt_irrefl _ hlt

end Entries

namespace Keyed

variable {α : Type}

theorem mem_entries_iff (m : Keyed α) {q : String} {v : α} :
    (q, v) ∈ m.entries ↔ m.find? q = some v :=
  (Entries.find?_eq_some_iff m.ascending.nodup_keys).symm

/-- A map is what is found in it. -/
theorem ext_find? {a b : Keyed α} (h : ∀ q, a.find? q = b.find? q) : a = b := by
  have hmem : ∀ e, e ∈ a.entries ↔ e ∈ b.entries := by
    rintro ⟨q, v⟩
    rw [mem_entries_iff, mem_entries_iff, h]
  have hperm : a.entries.Perm b.entries :=
    (List.perm_ext_iff_of_nodup a.ascending.nodup_keys.of_map
      b.ascending.nodup_keys.of_map).2 hmem
  have heq : a.entries = b.entries := by
    refine List.Perm.eq_of_pairwise (fun x y _ _ hxy hyx => ?_) a.ascending b.ascending hperm
    exact absurd hyx (String.lt_asymm hxy)
  cases a
  cases b
  cases heq
  rfl

theorem find?_ofList (l : List (String × α)) (q : String) :
    (ofList l).find? q = Entries.find? q l.reverse := Entries.find?_sort q l

theorem find?_ofList_eq_some_iff {l : List (String × α)} (h : (l.map Prod.fst).Nodup) {q : String}
    {v : α} : (ofList l).find? q = some v ↔ (q, v) ∈ l := by
  rw [find?_ofList, Entries.find?_reverse h, Entries.find?_eq_some_iff h]

theorem perm_entries_ofList {l : List (String × α)} (h : (l.map Prod.fst).Nodup) :
    (ofList l).entries.Perm l := by
  refine (List.perm_ext_iff_of_nodup (ofList l).ascending.nodup_keys.of_map h.of_map).2 ?_
  rintro ⟨q, v⟩
  rw [mem_entries_iff, find?_ofList_eq_some_iff h]

theorem entries_foldl_insert (l : List (String × α)) (m : Keyed α) :
    (l.foldl (fun m e => m.insert e.1 e.2) m).entries =
      l.foldl (fun acc e => Entries.insert e.1 e.2 acc) m.entries := by
  induction l generalizing m with
  | nil => rfl
  | cons e r ih => exact ih (m.insert e.1 e.2)

theorem find?_union (a b : Keyed α) (q : String) :
    (a.union b).find? q = (b.find? q).or (a.find? q) := by
  rw [find?, union, entries_foldl_insert, Entries.find?_foldl_insert,
    Entries.find?_reverse b.ascending.nodup_keys]
  rfl

end Keyed

end Workflow
