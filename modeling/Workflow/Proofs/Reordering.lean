import Workflow.Json.Record
import Workflow.Proofs.JsonValue

/-! Trees that differ in nothing but the order of members. A member may change places with a member of
another name, in every object of the tree. Such trees name the same value, and every reader that looks
members up by name reads the same from both. -/

namespace Workflow

namespace Entries

variable {α β : Type} {k : String}

/-- The values under `k`, in the order in which they stand. -/
def under (k : String) (l : List (String × α)) : List α := (l.filter (·.1 = k)).map Prod.snd

theorem under_cons_of_eq {e : String × α} (h : e.1 = k) (r : List (String × α)) :
    under k (e :: r) = e.2 :: under k r := by
  simp [under, h]

theorem under_cons_of_ne {e : String × α} (h : e.1 ≠ k) (r : List (String × α)) :
    under k (e :: r) = under k r := by
  simp [under, h]

theorem mem_under {l : List (String × α)} {v : α} : v ∈ under k l ↔ (k, v) ∈ l := by
  simp [under]

theorem length_under (k : String) (l : List (String × α)) :
    (under k l).length = (l.map Prod.fst).count k := by
  simp [under, ← List.countP_eq_length_filter, List.count, List.countP_map, Function.comp_def,
    beq_eq_decide]

theorem under_reverse (l : List (String × α)) : under k l.reverse = (under k l).reverse := by
  simp [under, List.filter_reverse]

theorem under_filterMap (f : α → Option β) (l : List (String × α)) :
    under k (l.filterMap fun e => (f e.2).map (e.1, ·)) = (under k l).filterMap f := by
  induction l with
  | nil => rfl
  | cons e r ih =>
    obtain ⟨q, v⟩ := e
    by_cases hq : q = k <;> cases hf : f v <;> simp_all [under]

theorem under_filter_ne (q : String) (l : List (String × α)) :
    under k (l.filter fun e => e.1 ≠ q) = if k = q then [] else under k l := by
  simp only [under, List.filter_filter]
  split
  · rename_i hk
    simp [hk]
  · rename_i hk
    congr 1
    refine List.filter_congr fun e _ => ?_
    by_cases he : e.1 = k <;> simp [he, hk]

theorem find?_eq_head? (l : List (String × α)) : find? k l = (under k l).head? := by
  induction l with
  | nil => rfl
  | cons e r ih =>
    obtain ⟨q, v⟩ := e
    by_cases hq : q = k
    · rw [under_cons_of_eq hq, find?, if_pos hq, List.head?_cons]
    · rw [under_cons_of_ne hq, find?, if_neg hq, ih]

/-- A map depends on the order of entries of one name only. -/
theorem sort_congr {l m : List (String × α)} (h : ∀ k, under k l = under k m) : sort l = sort m := by
  have hsame : Keyed.ofList l = Keyed.ofList m := by
    refine Keyed.ext_find? fun k => ?_
    rw [Keyed.find?_ofList, Keyed.find?_ofList, find?_eq_head?, find?_eq_head?, under_reverse,
      under_reverse, h]
  exact congrArg Keyed.entries hsame

theorem perm_keys {l : List (String × α)} {m : List (String × β)}
    (h : ∀ k, (under k l).length = (under k m).length) :
    (l.map Prod.fst).Perm (m.map Prod.fst) := by
  rw [List.perm_iff_count]
  intro k
  rw [← length_under, ← length_under, h]

theorem under_of_perm {l m : List (String × α)} (distinct : (l.map Prod.fst).Nodup) (h : l.Perm m)
    (k : String) : under k l = under k m := by
  have hperm : (under k l).Perm (under k m) := (h.filter _).map _
  have hlength : (under k l).length ≤ 1 :=
    length_under k l ▸ List.nodup_iff_count_le_one.1 distinct k
  rcases hunder : under k l with _ | ⟨v, _ | _⟩
  · rw [hunder] at hperm
    exact hperm.nil_eq
  · rw [hunder] at hperm
    exact hperm.singleton_eq
  · rw [hunder] at hlength
    simp at hlength

theorem forall₂_under {R : α → β → Prop} {l : List (String × α)} {m : List (String × β)}
    (h : List.Forall₂ (fun a b => a.1 = b.1 ∧ R a.2 b.2) l m) (k : String) :
    List.Forall₂ R (under k l) (under k m) := by
  induction h with
  | nil => exact .nil
  | @cons a b _ _ hab _ ih =>
    obtain ⟨hname, hR⟩ := hab
    by_cases hk : a.1 = k
    · have hk' : b.1 = k := hname ▸ hk
      rw [under_cons_of_eq hk, under_cons_of_eq hk']
      exact .cons hR ih
    · have hk' : ¬ b.1 = k := hname ▸ hk
      rwa [under_cons_of_ne hk, under_cons_of_ne hk']

end Entries

open Entries (under)

theorem cases_of_rel {α β : Type} {R : α → β → Prop} {o : Option α} {p : Option β}
    (h : Option.Rel R o p) : (o = none ∧ p = none) ∨ ∃ a b, o = some a ∧ p = some b ∧ R a b := by
  cases h with
  | none => exact .inl ⟨rfl, rfl⟩
  | some hab => exact .inr ⟨_, _, rfl, rfl, hab⟩

namespace Json

namespace Tree

/-- The trees are the same up to the order of members of different names. -/
inductive Reordered : Tree → Tree → Prop
  | same (t : Tree) : Reordered t t
  | array {ts us : List Tree} (length : ts.length = us.length)
      (items : ∀ p ∈ ts.zip us, Reordered p.1 p.2) : Reordered (.array ts) (.array us)
  | object {ms ns : List (String × Tree)}
      (length : ∀ k, (under k ms).length = (under k ns).length)
      (members : ∀ k, ∀ p ∈ (under k ms).zip (under k ns), Reordered p.1 p.2) :
      Reordered (.object ms) (.object ns)

theorem Reordered.of_items {ts us : List Tree} (h : List.Forall₂ Reordered ts us) :
    Reordered (.array ts) (.array us) := by
  obtain ⟨length, items⟩ := List.forall₂_iff_zip.1 h
  exact .array length fun p hp => items hp

theorem Reordered.of_members {ms ns : List (String × Tree)}
    (h : ∀ k, List.Forall₂ Reordered (under k ms) (under k ns)) :
    Reordered (.object ms) (.object ns) := by
  refine .object (fun k => (h k).length_eq) fun k p hp => ?_
  exact (List.forall₂_iff_zip.1 (h k)).2 hp

/-- Only arrays and objects can be reordered. -/
theorem Reordered.forms {t u : Tree} (h : t.Reordered u) : t = u ∨
    (∃ ts us, t = .array ts ∧ u = .array us ∧ List.Forall₂ Reordered ts us) ∨
      ∃ ms ns, t = .object ms ∧ u = .object ns ∧
        ∀ k, List.Forall₂ Reordered (under k ms) (under k ns) := by
  cases h with
  | same => exact .inl rfl
  | array length items =>
    exact .inr (.inl ⟨_, _, rfl, rfl, List.forall₂_iff_zip.2 ⟨length, fun hp => items _ hp⟩⟩)
  | object length members =>
    refine .inr (.inr ⟨_, _, rfl, rfl, fun k => ?_⟩)
    exact List.forall₂_iff_zip.2 ⟨length k, fun hp => members k _ hp⟩

/-- Members with names of their own may stand in any order, and each be reordered in itself. -/
theorem Reordered.of_perm {ms ms' ns : List (String × Tree)} (distinct : (ms.map Prod.fst).Nodup)
    (h : ms.Perm ms') (hm : List.Forall₂ (fun m n => m.1 = n.1 ∧ m.2.Reordered n.2) ms' ns) :
    Reordered (.object ms) (.object ns) := by
  apply of_members
  intro k
  rw [Entries.under_of_perm distinct h]
  exact Entries.forall₂_under hm k

theorem Reordered.same_members (ms : List (String × Tree)) :
    List.Forall₂ (fun m n => m.1 = n.1 ∧ m.2.Reordered n.2) ms ms :=
  List.forall₂_same.2 fun m _ => ⟨rfl, .same m.2⟩

/-- The reader does not look at the order of members. -/
def Steady {α : Type} (read : Tree → α) : Prop := ∀ t u, Reordered t u → read t = read u

theorem memberValues?_eq_filterMap (ms : List (String × Tree)) :
    memberValues? ms =
      if ∀ m ∈ ms, m.2.value?.isSome then
        some (ms.filterMap fun m => m.2.value?.map (m.1, ·)) else none := by
  simp only [memberValues?_eq_mapM, mapM_eq_filterMap, Option.isSome_map]

theorem value?_steady : Steady value? := by
  intro t u h
  induction h with
  | same => rfl
  | array length items ih =>
    rw [value?, value?, values?_eq_mapM, values?_eq_mapM, mapM_congr (map_eq_of_zip length ih)]
  -- whether all members are readable, and what the map of them is, shows under each name alone
  | @object ms ns length members ih =>
    have hunder (k : String) : (under k ms).map value? = (under k ns).map value? :=
      map_eq_of_zip (length k) (ih k)
    have hreadable : (∀ m ∈ ms, m.2.value?.isSome) ↔ ∀ n ∈ ns, n.2.value?.isSome := by
      have hforall (l : List (String × Tree)) : (∀ m ∈ l, m.2.value?.isSome) ↔
          ∀ k, ∀ o ∈ (under k l).map value?, o.isSome := by
        simp [Entries.mem_under]
      simp only [hforall, hunder]
    have hvalues : Entries.sort (ms.filterMap fun m => m.2.value?.map (m.1, ·)) =
        Entries.sort (ns.filterMap fun n => n.2.value?.map (n.1, ·)) := by
      refine Entries.sort_congr fun k => ?_
      have hid (l : List Tree) : l.filterMap value? = (l.map value?).filterMap id := by
        rw [List.filterMap_map]; rfl
      rw [Entries.under_filterMap, Entries.under_filterMap, hid, hid, hunder]
    rw [value?, value?, memberValues?_eq_filterMap, memberValues?_eq_filterMap]
    simp only [hreadable]
    split
    · rw [Option.map_some, Option.map_some, hvalues]
    · rfl

theorem text?_steady : Steady text? := by
  intro t u h
  cases h <;> rfl

theorem bool?_steady : Steady bool? := by
  intro t u h
  cases h <;> rfl

section Combinators

variable {α : Type} {read : Tree → Option α} (h : Steady read)
include h

theorem list?_steady : Steady (list? read) := by
  intro t u htu
  cases htu with
  | same => rfl
  | array length items => exact mapM_congr (map_eq_of_zip length fun p hp => h _ _ (items p hp))
  | object => rfl

theorem nullable?_steady : Steady (nullable? read) := by
  intro t u htu
  have hread := h t u htu
  cases htu with
  | same => rfl
  | array | object => exact congrArg (Option.map some) hread

end Combinators

end Tree

namespace Record

/-- The records have the same members, up to the order of members inside them. -/
structure Reordered (r s : Record) : Prop where
  byPosition : r.byPosition = s.byPosition
  find (k : String) : Option.Rel Tree.Reordered (r.find? k) (s.find? k)

namespace Reordered

theorem refl (r : Record) : r.Reordered r := by
  refine ⟨rfl, fun k => ?_⟩
  cases r.find? k with
  | none => exact .none
  | some t => exact .some (.same t)

variable {α : Type} {r s : Record} (h : r.Reordered s)
include h

theorem required {read : Tree → Option α} (hread : Tree.Steady read) (k : String) :
    r.required k read = s.required k read := by
  unfold Record.required
  rcases cases_of_rel (h.find k) with ⟨hr, hs⟩ | ⟨t, u, hr, hs, htu⟩
  · rw [hr, hs]
  · rw [hr, hs, Option.bind_some, Option.bind_some, hread t u htu]

theorem withDefault {read : Tree → Option α} (hread : Tree.Steady read) (k : String) (d : α) :
    r.withDefault k d read = s.withDefault k d read := by
  unfold Record.withDefault
  rcases cases_of_rel (h.find k) with ⟨hr, hs⟩ | ⟨t, u, hr, hs, htu⟩
  · rw [hr, hs]
  · simp only [hr, hs, hread t u htu]

theorem optional {read : Tree → Option (Option α)} (hread : Tree.Steady read) (k : String) :
    r.optional k read = s.optional k read := by
  unfold Record.optional
  rcases cases_of_rel (h.find k) with ⟨hr, hs⟩ | ⟨t, u, hr, hs, htu⟩
  · rw [hr, hs, h.byPosition]
  · simp only [hr, hs, hread t u htu]

end Reordered

theorem rel_find?_zip {R : Tree → Tree → Prop} {ts us : List Tree} (h : List.Forall₂ R ts us)
    (names : List String) (k : String) :
    Option.Rel R (Entries.find? k (names.zip ts)) (Entries.find? k (names.zip us)) := by
  induction names generalizing ts us with
  | nil => exact .none
  | cons n r ih =>
    cases h with
    | nil => exact .none
    | cons ht hr =>
      simp only [List.zip_cons_cons, Entries.find?]
      split
      · exact .some ht
      · exact ih hr

section Kept

variable (names : List String) (aliases : List (String × String)) {ms ns : List (String × Tree)}

/-- The members that a record keeps, under the names by which it keeps them. -/
def kept (ms : List (String × Tree)) : List (String × Tree) :=
  ms.filterMap fun m => (keptAs names aliases m.1).map (·, m.2)

theorem keys_kept : (kept names aliases ms).map Prod.fst =
    (ms.map Prod.fst).filterMap (keptAs names aliases) := by
  simp [kept, List.map_filterMap, List.filterMap_map, Function.comp_def]

theorem mem_kept {k : String} {t : Tree} : (k, t) ∈ kept names aliases ms ↔
    ∃ q, keptAs names aliases q = some k ∧ t ∈ under q ms := by
  simp [kept, Entries.mem_under, and_comm]

variable (h : ∀ k, List.Forall₂ Tree.Reordered (under k ms) (under k ns))
include h

theorem perm_keys_kept : ((kept names aliases ms).map Prod.fst).Perm
    ((kept names aliases ns).map Prod.fst) := by
  rw [keys_kept, keys_kept]
  exact (Entries.perm_keys fun k => (h k).length_eq).filterMap _

theorem rel_find?_kept (hdistinct : ((kept names aliases ms).map Prod.fst).Nodup) (k : String) :
    Option.Rel Tree.Reordered (Entries.find? k (kept names aliases ms))
      (Entries.find? k (kept names aliases ns)) := by
  have hkeys := perm_keys_kept names aliases h
  have hdistinct' := hkeys.nodup_iff.1 hdistinct
  cases ht : Entries.find? k (kept names aliases ms) with
  | none =>
    have hnone : Entries.find? k (kept names aliases ns) = none := by
      rw [← Option.not_isSome_iff_eq_none, Entries.find?_isSome_iff, ← hkeys.mem_iff,
        ← Entries.find?_isSome_iff, Option.not_isSome_iff_eq_none, ht]
    rw [hnone]
    exact .none
  | some t =>
    obtain ⟨q, hq, ht⟩ := (mem_kept names aliases).1 ((Entries.find?_eq_some_iff hdistinct).1 ht)
    obtain ⟨u, hu, htu⟩ := exists_left_of_forall₂ (h q).flip ht
    rw [(Entries.find?_eq_some_iff hdistinct').2 ((mem_kept names aliases).2 ⟨q, hq, hu⟩)]
    exact .some htu

end Kept

/-- Both trees are refused as records, or both are read as records with the same members. -/
theorem ofTree?_reordered (names : List String) (aliases : List (String × String)) {t u : Tree}
    (h : t.Reordered u) :
    Option.Rel Record.Reordered (ofTree? names aliases t) (ofTree? names aliases u) := by
  rcases h.forms with rfl | ⟨ts, us, rfl, rfl, hitems⟩ | ⟨ms, ns, rfl, rfl, hmembers⟩
  · cases ofTree? names aliases t with
    | none => exact .none
    | some r => exact .some (.refl r)
  · simp only [ofTree?, hitems.length_eq]
    split
    · exact .some ⟨rfl, rel_find?_zip hitems names⟩
    · exact .none
  · have hkeys := perm_keys_kept names aliases hmembers
    by_cases hdistinct : ((kept names aliases ms).map Prod.fst).Nodup
    · have hms : ofTree? names aliases (.object ms) = some ⟨false, kept names aliases ms⟩ :=
        if_pos hdistinct
      have hns : ofTree? names aliases (.object ns) = some ⟨false, kept names aliases ns⟩ :=
        if_pos (hkeys.nodup_iff.1 hdistinct)
      rw [hms, hns]
      exact .some ⟨rfl, rel_find?_kept names aliases hmembers hdistinct⟩
    · have hms : ofTree? names aliases (.object ms) = none := if_neg hdistinct
      have hns : ofTree? names aliases (.object ns) = none :=
        if_neg fun h => hdistinct (hkeys.nodup_iff.2 h)
      rw [hms, hns]
      exact .none

/-- A reader of records is steady if it looks at what the members are up to their order. -/
theorem steady {α : Type} (names : List String) (aliases : List (String × String))
    {read : Record → Option α} (h : ∀ r s, r.Reordered s → read r = read s) :
    Tree.Steady fun t => (ofTree? names aliases t).bind read := by
  intro t u htu
  rcases cases_of_rel (ofTree?_reordered names aliases htu) with ⟨ht, hu⟩ | ⟨r, s, ht, hu, hrs⟩
  · simp only [ht, hu]
  · simp only [ht, hu, Option.bind_some, h r s hrs]

end Record

end Json

end Workflow
