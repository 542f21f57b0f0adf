import Workflow.Query

/-! Queries as trees. Two queries that are one tree give the same answer and read the same fields
in the same order, whatever the data. Where two queries are not one tree, what they read first
decides what they read next, so they are compared over the data at hand. -/

namespace Workflow.Query

variable {α β γ : Type}

@[simp] theorem bind_answer_ok (a : α) (f : α → Query β) : (answer (.ok a)).bind f = f a := rfl

@[simp] theorem bind_answer_error (e : EvaluationError) (f : α → Query β) :
    (answer (.error e)).bind f = answer (.error e) := rfl

@[simp] theorem bind_look (k : String) (next : Option Value → Query α) (f : α → Query β) :
    (look k next).bind f = look k (fun v => (next v).bind f) := rfl

theorem bind_assoc (q : Query α) (f : α → Query β) (g : β → Query γ) :
    (q.bind f).bind g = q.bind (fun a => (f a).bind g) := by
  induction q with
  | answer r => cases r <;> rfl
  | look k next ih => simp only [bind_look, ih]

/-- Changes the answer and nothing that is read. -/
def map (f : α → β) (q : Query α) : Query β := q.bind (fun a => answer (.ok (f a)))

theorem map_bind (q : Query α) (f : α → Query β) (g : β → γ) :
    (q.bind f).map g = q.bind (fun a => (f a).map g) := bind_assoc q f _

theorem bind_map (q : Query α) (f : α → β) (g : β → Query γ) :
    (q.map f).bind g = q.bind (fun a => g (f a)) := bind_assoc q _ g

@[simp] theorem map_answer_ok (a : α) (f : α → β) :
    (answer (.ok a)).map f = answer (.ok (f a)) := rfl

@[simp] theorem run_map (l : FieldLookup) (f : α → β) (q : Query α) :
    (q.map f).run l = (q.run l).map f := by
  rw [map, run_bind]
  cases q.run l <;> rfl

theorem run_map_eq_ok {l : FieldLookup} {f : α → β} {q : Query α} {b : β} :
    (q.map f).run l = .ok b ↔ ∃ a, q.run l = .ok a ∧ f a = b := by
  rw [run_map]
  cases q.run l <;> simp [Except.map]

theorem run_map_eq_error {l : FieldLookup} {f : α → β} {q : Query α} {e : EvaluationError} :
    (q.map f).run l = .error e ↔ q.run l = .error e := by
  rw [run_map]
  cases q.run l <;> simp [Except.map]

@[simp] theorem reads_map (l : FieldLookup) (f : α → β) (q : Query α) :
    (q.map f).reads l = q.reads l := by
  simp [map, reads_bind]

theorem run_bind_eq_ok {l : FieldLookup} {q : Query α} {f : α → Query β} {b : β} :
    (q.bind f).run l = .ok b ↔ ∃ a, q.run l = .ok a ∧ (f a).run l = .ok b := by
  rw [run_bind]
  cases q.run l <;> simp [Except.bind]

theorem reads_bind_of_ok {l : FieldLookup} {q : Query α} {f : α → Query β} {a : α}
    (h : q.run l = .ok a) : (q.bind f).reads l = q.reads l ++ (f a).reads l := by
  simp [reads_bind, h, Except.toOption]

/-- Data that agree on what is read give the same answer, and the same is read. -/
theorem run_congr {l m : FieldLookup} {q : Query α} (h : ∀ k ∈ q.reads l, l k = m k) :
    q.run m = q.run l ∧ q.reads m = q.reads l := by
  induction q with
  | answer r => exact ⟨rfl, rfl⟩
  | look k next ih =>
    rw [reads_look] at h
    have hk : l k = m k := h k List.mem_cons_self
    obtain ⟨hrun, hreads⟩ := ih (l k) fun j hj => h j (List.mem_cons_of_mem _ hj)
    rw [run_look, run_look, reads_look, reads_look, ← hk]
    exact ⟨hrun, congrArg (k :: ·) hreads⟩

/-- Only the first query and the sequel that follows its answer read anything. -/
theorem mem_reads_bind {l : FieldLookup} {q : Query α} {f : α → Query β} {k : String}
    (h : k ∈ (q.bind f).reads l) :
    k ∈ q.reads l ∨ ∃ a, q.run l = .ok a ∧ k ∈ (f a).reads l := by
  rw [reads_bind, List.mem_append, List.mem_flatMap] at h
  rcases h with h | ⟨a, ha, hk⟩
  · exact Or.inl h
  · refine Or.inr ⟨a, ?_, hk⟩
    cases hq : q.run l with
    | error e => simp [hq, Except.toOption] at ha
    | ok b => simpa [hq, Except.toOption, eq_comm] using ha

end Workflow.Query
