import Mathlib.Data.List.Forall2

/-! Lists read item by item, where one item that cannot be read spoils the whole list. -/

namespace Workflow

variable {α β : Type} {f : α → Option β}

theorem bind_ne_some {o : Option α} {b : β} (h : ∀ a, f a ≠ some b) : o.bind f ≠ some b := by
  intro hb
  obtain ⟨a, -, ha⟩ := Option.bind_eq_some_iff.1 hb
  exact h a ha

theorem mapM_eq_some_iff {l : List α} {m : List β} :
    l.mapM f = some m ↔ List.Forall₂ (fun a b => f a = some b) l m := by
  induction l generalizing m with
  | nil => simp [eq_comm]
  | cons a r ih =>
    simp only [List.mapM_cons, Option.bind_eq_bind, Option.bind_eq_some_iff, ih,
      List.forall₂_cons_left_iff, Option.pure_def, Option.some.injEq]
    constructor
    · rintro ⟨b, hb, m, hm, rfl⟩
      exact ⟨b, m, hb, hm, rfl⟩
    · rintro ⟨b, m, hb, hm, rfl⟩
      exact ⟨b, hb, m, hm, rfl⟩

theorem mapM_eq_some_map_iff {g : α → β} {l : List α} :
    l.mapM f = some (l.map g) ↔ ∀ a ∈ l, f a = some (g a) := by
  rw [mapM_eq_some_iff, List.forall₂_map_right_iff, List.forall₂_same]

theorem eq_map_of_mapM {l : List α} {m : List β} (h : l.mapM f = some m) (default : α → β) :
    m = l.map fun a => (f a).getD (default a) := by
  rw [mapM_eq_some_iff] at h
  induction h with
  | nil => rfl
  | cons ha _ ih => rw [List.map_cons, ← ih, ha, Option.getD_some]

theorem mapM_map_eq_some {g : β → α} {l : List β} (h : ∀ b ∈ l, f (g b) = some b) :
    (l.map g).mapM f = some l := by
  rw [mapM_eq_some_iff, List.forall₂_map_left_iff, List.forall₂_same]
  exact h

theorem exists_left_of_forall₂ {R : α → β → Prop} {l : List α} {m : List β}
    (h : List.Forall₂ R l m) {b : β} (hb : b ∈ m) : ∃ a ∈ l, R a b := by
  induction h with
  | nil => cases hb
  | cons hr _ ih =>
    rcases List.mem_cons.1 hb with rfl | hb
    · exact ⟨_, List.mem_cons_self, hr⟩
    · obtain ⟨a, ha, hab⟩ := ih hb
      exact ⟨a, List.mem_cons_of_mem _ ha, hab⟩

theorem forall₂_of_forall₂ {γ : Type} {R : α → β → Prop} {S : β → γ → Prop} {T : α → γ → Prop}
    {l : List α} {m : List β} {n : List γ} (hR : List.Forall₂ R l m) (hS : List.Forall₂ S m n)
    (h : ∀ a ∈ l, ∀ b c, R a b → S b c → T a c) : List.Forall₂ T l n := by
  induction hR generalizing n with
  | nil =>
    cases hS
    exact .nil
  | cons hab _ ih =>
    obtain ⟨hhead, htail⟩ := List.forall_mem_cons.1 h
    cases hS with
    | cons hbc hS => exact .cons (hhead _ _ hab hbc) (ih hS htail)

theorem forall_mem_of_mapM {P : β → Prop} {l : List α} {m : List β} (hm : l.mapM f = some m)
    (h : ∀ a ∈ l, ∀ b, f a = some b → P b) : ∀ b ∈ m, P b := by
  intro b hb
  obtain ⟨a, ha, hab⟩ := exists_left_of_forall₂ (mapM_eq_some_iff.1 hm) hb
  exact h a ha b hab

theorem mapM_eq_none {l : List α} {a : α} (ha : a ∈ l) (h : f a = none) : l.mapM f = none := by
  induction l with
  | nil => cases ha
  | cons c r ih =>
    simp only [List.mapM_cons, Option.bind_eq_bind]
    rcases List.mem_cons.1 ha with rfl | ha
    · rw [h, Option.bind_none]
    · rw [ih ha]
      cases f c <;> rfl

theorem map_eq_of_zip {g : α → β} {l m : List α} (length : l.length = m.length)
    (h : ∀ p ∈ l.zip m, g p.1 = g p.2) : l.map g = m.map g := by
  have hall : List.Forall₂ (fun a b => g a = g b) l m :=
    List.forall₂_iff_zip.2 ⟨length, fun hp => h _ hp⟩
  rw [← List.forall₂_eq_eq_eq, List.forall₂_map_left_iff, List.forall₂_map_right_iff]
  exact hall

theorem mapM_congr {l m : List α} (h : l.map f = m.map f) : l.mapM f = m.mapM f := by
  have hid (l : List α) : l.mapM f = (l.map f).mapM id := by
    rw [List.mapM_map]
    rfl
  rw [hid, hid, h]

theorem mapM_eq_filterMap (f : α → Option β) (l : List α) :
    l.mapM f = if ∀ a ∈ l, (f a).isSome then some (l.filterMap f) else none := by
  induction l with
  | nil => simp
  | cons a r ih =>
    rw [List.mapM_cons, ih]
    cases ha : f a with
    | none => simp [ha]
    | some b =>
      simp only [List.forall_mem_cons, ha, Option.isSome_some, true_and, List.filterMap_cons]
      split <;> rfl

end Workflow
