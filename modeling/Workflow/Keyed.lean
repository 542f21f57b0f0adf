/-!
Finite maps from names to values, kept as a list of entries in strictly ascending order of name
(code point by code point). Two maps with the same value under every name are the same list.
-/

namespace Workflow

namespace Entries

variable {α β : Type}

/-- Names ascend strictly, so none occurs twice. -/
def Ascending (l : List (String × α)) : Prop := l.Pairwise (fun a b => a.1 < b.1)

/-- The value of the first entry called `k`. -/
def find? (k : String) : List (String × α) → Option α
  | [] => none
  | (k', v) :: r => if k' = k then some v else find? k r

/-- Puts `v` under `k`, replacing what was there. -/
def insert (k : String) (v : α) : List (String × α) → List (String × α)
  | [] => [(k, v)]
  | (k', v') :: r =>
    if k < k' then (k, v) :: (k', v') :: r
    else if k' = k then (k, v) :: r
    else (k', v') :: insert k v r

/-- Drops every entry called `k`. -/
def erase (k : String) : List (String × α) → List (String × α)
  | [] => []
  | (k', v) :: r => if k' = k then erase k r else (k', v) :: erase k r

/-- `insert`, with the value that was there. -/
def exchange (k : String) (v : α) : List (String × α) → Option α × List (String × α)
  | [] => (none, [(k, v)])
  | (k', v') :: r =>
    if k < k' then (none, (k, v) :: (k', v') :: r)
    else if k' = k then (some v', (k, v) :: r)
    else
      let (old, r') := exchange k v r
      (old, (k', v') :: r')

/-- Drops the first entry called `k`, and says what its value was. -/
def extract (k : String) : List (String × α) → Option α × List (String × α)
  | [] => (none, [])
  | (k', v) :: r =>
    if k' = k then (some v, r)
    else
      let (old, r') := extract k r
      (old, (k', v) :: r')

/-- The entries of `l` in ascending order; of several with one name the last counts. -/
def sort (l : List (String × α)) : List (String × α) :=
  l.foldl (fun acc e => insert e.1 e.2 acc) []

@[simp] theorem find?_nil (k : String) : find? k ([] : List (String × α)) = none := rfl

theorem lt_of_not {a b : String} (h : ¬ a < b) (hne : ¬ b = a) : b < a :=
  Decidable.byContradiction fun hn =>
    hne (String.le_antisymm (String.not_lt.1 h) (String.not_lt.1 hn))

theorem fst_insert {k : String} {v : α} {l : List (String × α)} {e : String × α}
    (h : e ∈ insert k v l) : e.1 = k ∨ e ∈ l := by
  induction l with
  | nil => simp [insert] at h; simp [h]
  | cons x r ih =>
    obtain ⟨k', v'⟩ := x
    simp only [insert] at h
    split at h
    · simp only [List.mem_cons] at h; rcases h with rfl | h | h <;> simp [*]
    · split at h
      · simp only [List.mem_cons] at h; rcases h with rfl | h <;> simp [*]
      · simp only [List.mem_cons] at h
        rcases h with rfl | h
        · simp
        · rcases ih h with h | h <;> simp [h]

theorem ascending_insert {k : String} {v : α} {l : List (String × α)} (h : Ascending l) :
    Ascending (insert k v l) := by
  induction l with
  | nil => simp [insert, Ascending]
  | cons x r ih =>
    obtain ⟨k', v'⟩ := x
    simp only [Ascending, List.pairwise_cons] at h
    simp only [insert]
    split
    · rename_i hlt
      simp only [Ascending, List.pairwise_cons, List.mem_cons]
      refine ⟨?_, h⟩
      rintro e (rfl | he)
      · exact hlt
      · exact String.lt_trans hlt (h.1 e he)
    · rename_i hlt
      split
      · rename_i heq
        subst heq
        simp only [Ascending, List.pairwise_cons]
        exact h
      · rename_i hne
        simp only [Ascending, List.pairwise_cons]
        refine ⟨?_, ih h.2⟩
        intro e he
        rcases fst_insert he with he | he
        · rw [he]; exact lt_of_not hlt hne
        · exact h.1 e he

theorem mem_erase {k : String} {l : List (String × α)} {e : String × α} :
    e ∈ erase k l ↔ e ∈ l ∧ e.1 ≠ k := by
  induction l with
  | nil => simp [erase]
  | cons x r ih =>
    obtain ⟨k', v⟩ := x
    simp only [erase]
    split
    · rename_i h
      rw [ih]
      constructor
      · rintro ⟨h1, h2⟩; exact ⟨List.mem_cons_of_mem _ h1, h2⟩
      · rintro ⟨h1, h2⟩
        rcases List.mem_cons.1 h1 with rfl | h1
        · exact absurd h h2
        · exact ⟨h1, h2⟩
    · rename_i h
      simp only [List.mem_cons, ih]
      constructor
      · rintro (rfl | ⟨h1, h2⟩)
        · exact ⟨Or.inl rfl, h⟩
        · exact ⟨Or.inr h1, h2⟩
      · rintro ⟨rfl | h1, h2⟩
        · exact Or.inl rfl
        · exact Or.inr ⟨h1, h2⟩

theorem ascending_erase {k : String} {l : List (String × α)} (h : Ascending l) :
    Ascending (erase k l) := by
  induction l with
  | nil => simp [erase, Ascending]
  | cons x r ih =>
    obtain ⟨k', v⟩ := x
    simp only [Ascending, List.pairwise_cons] at h
    simp only [erase]
    split
    · exact ih h.2
    · simp only [Ascending, List.pairwise_cons]
      exact ⟨fun e he => h.1 e (mem_erase.1 he).1, ih h.2⟩

theorem snd_exchange (k : String) (v : α) (l : List (String × α)) :
    (exchange k v l).2 = insert k v l := by
  induction l with
  | nil => rfl
  | cons x r ih =>
    simp only [exchange, insert]
    split
    · rfl
    · split
      · rfl
      · rw [ih]

theorem erase_eq_self {k : String} {l : List (String × α)} (h : ∀ e ∈ l, e.1 ≠ k) :
    erase k l = l := by
  induction l with
  | nil => rfl
  | cons x r ih =>
    obtain ⟨hx, hr⟩ := List.forall_mem_cons.1 h
    rw [erase, if_neg hx, ih hr]

theorem Ascending.ne_of_mem {k : String} {v : α} {r : List (String × α)}
    (h : Ascending ((k, v) :: r)) : ∀ e ∈ r, e.1 ≠ k := by
  intro e he heq
  have hlt : k < e.1 := (List.pairwise_cons.1 h).1 e he
  rw [heq] at hlt
  exact String.lt_irrefl k hlt

/-- No second entry has the name. -/
theorem snd_extract {k : String} {l : List (String × α)} (h : Ascending l) :
    (extract k l).2 = erase k l := by
  induction l with
  | nil => rfl
  | cons x r ih =>
    obtain ⟨k', v⟩ := x
    simp only [extract, erase]
    split
    · rename_i heq
      subst heq
      exact (erase_eq_self h.ne_of_mem).symm
    · simp only [ih h.of_cons]

theorem ascending_foldl_insert {l acc : List (String × α)} (h : Ascending acc) :
    Ascending (l.foldl (fun acc e => insert e.1 e.2 acc) acc) := by
  induction l generalizing acc with
  | nil => exact h
  | cons x r ih => exact ih (ascending_insert h)

theorem ascending_sort (l : List (String × α)) : Ascending (sort l) :=
  ascending_foldl_insert (by simp [Ascending])

theorem find?_insert {k : String} {v : α} {l : List (String × α)} (q : String) :
    find? q (insert k v l) = if k = q then some v else find? q l := by
  induction l with
  | nil => rfl
  | cons x r ih =>
    obtain ⟨k', v'⟩ := x
    simp only [insert]
    split
    · simp only [find?]
    · split
      · rename_i heq
        subst heq
        simp only [find?]
        split <;> simp_all
      · rename_i hne
        simp only [find?, ih]
        split
        · rename_i h1
          subst h1
          split
          · rename_i h2; exact absurd h2.symm hne
          · rfl
        · rfl

theorem find?_erase {k : String} {l : List (String × α)} (q : String) :
    find? q (erase k l) = if k = q then none else find? q l := by
  induction l with
  | nil => simp [erase]
  | cons x r ih =>
    obtain ⟨k', v⟩ := x
    simp only [erase]
    split
    · rename_i h
      subst h
      rw [ih]
      simp only [find?]
      split <;> simp_all
    · rename_i h
      simp only [find?, ih]
      split
      · rename_i h1
        subst h1
        split
        · rename_i h2; exact absurd h2.symm h
        · rfl
      · rfl

theorem find?_eq_none_of_forall_lt {q : String} {l : List (String × α)} (h : ∀ e ∈ l, q < e.1) :
    find? q l = none := by
  induction l with
  | nil => rfl
  | cons x r ih =>
    obtain ⟨hx, hr⟩ := List.forall_mem_cons.1 h
    rw [find?, if_neg, ih hr]
    rintro rfl
    exact String.lt_irrefl _ hx

theorem fst_exchange {k : String} {l : List (String × α)} (h : Ascending l) (v : α) :
    (exchange k v l).1 = find? k l := by
  induction l with
  | nil => rfl
  | cons x r ih =>
    obtain ⟨k', v'⟩ := x
    simp only [exchange]
    split
    · -- the names that follow are larger still
      rename_i hlt
      symm
      apply find?_eq_none_of_forall_lt
      intro e he
      rcases List.mem_cons.1 he with rfl | he
      · exact hlt
      · exact String.lt_trans hlt ((List.pairwise_cons.1 h).1 e he)
    · rw [find?]
      split
      · rfl
      · exact ih h.of_cons

theorem fst_extract (k : String) (l : List (String × α)) : (extract k l).1 = find? k l := by
  induction l with
  | nil => rfl
  | cons x r ih =>
    simp only [extract, find?]
    split
    · rfl
    · exact ih

end Entries

/-- A finite map from names to values. -/
structure Keyed (α : Type) where
  entries : List (String × α)
  ascending : Entries.Ascending entries

namespace Keyed

variable {α : Type}

def empty : Keyed α := ⟨[], List.Pairwise.nil⟩

def find? (m : Keyed α) (k : String) : Option α := Entries.find? k m.entries

def insert (m : Keyed α) (k : String) (v : α) : Keyed α :=
  ⟨Entries.insert k v m.entries, Entries.ascending_insert m.ascending⟩

def erase (m : Keyed α) (k : String) : Keyed α :=
  ⟨Entries.erase k m.entries, Entries.ascending_erase m.ascending⟩

/-- The value under `k`, and the map with `v` in its place. -/
def exchange (m : Keyed α) (k : String) (v : α) : Option α × Keyed α :=
  let p := Entries.exchange k v m.entries
  (p.1, ⟨p.2, by rw [Entries.snd_exchange]; exact Entries.ascending_insert m.ascending⟩)

/-- The value under `k`, and the map without it. -/
def extract (m : Keyed α) (k : String) : Option α × Keyed α :=
  let p := Entries.extract k m.entries
  (p.1, ⟨p.2, by rw [Entries.snd_extract m.ascending]; exact Entries.ascending_erase m.ascending⟩)

/-- Of several entries with one name the last counts. -/
def ofList (l : List (String × α)) : Keyed α := ⟨Entries.sort l, Entries.ascending_sort l⟩

/-- Everything in `a` or `b`; where both have a name, `b` wins. -/
def union (a b : Keyed α) : Keyed α :=
  b.entries.foldl (fun m e => m.insert e.1 e.2) a

def size (m : Keyed α) : Nat := m.entries.length

def isEmpty (m : Keyed α) : Bool := m.entries.isEmpty

@[simp] theorem find?_empty (k : String) : (empty : Keyed α).find? k = none := rfl

theorem find?_insert (m : Keyed α) (k q : String) (v : α) :
    (m.insert k v).find? q = if k = q then some v else m.find? q := Entries.find?_insert q

theorem find?_erase (m : Keyed α) (k q : String) :
    (m.erase k).find? q = if k = q then none else m.find? q := Entries.find?_erase q

theorem exchange_eq (m : Keyed α) (k : String) (v : α) :
    m.exchange k v = (m.find? k, m.insert k v) := by
  simp only [exchange, insert, find?, Entries.snd_exchange, Entries.fst_exchange m.ascending]

theorem extract_eq (m : Keyed α) (k : String) : m.extract k = (m.find? k, m.erase k) := by
  simp only [extract, erase, find?, Entries.snd_extract m.ascending, Entries.fst_extract]

end Keyed

end Workflow
