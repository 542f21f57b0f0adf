import Workflow.Engine.Run
import Workflow.Proofs.Resolution

/-! What one step of a run can do. It visits an element of the process; then the executor has
failed, or the run halts there, or it stands before another element. A step adds the visit to what
was done before and changes nothing of that. -/

namespace Workflow

/-- An element that was visited, with the data before and after. -/
structure Visit where
  element : Element
  before : Context
  after : Context
  patchedFields : List String

namespace Visit

variable {σ : Type}

/-- The call that the visit made. -/
def call? (v : Visit) : Option Call := v.element.task?.map fun _ => ⟨v.element, v.before⟩

/-- A visit to the element called `n`, with data `c` and an executor in state `s`. A task is done
by one call of the executor, which succeeds. A gateway makes no call and changes no data. -/
inductive Made (g : Engine) (x : Executor σ) :
    String → Context → σ → Visit → σ → Prop
  | task {n c s s' e t d} (he : g.element n = .ok e) (hk : e.kind = .task t)
      (hx : x s e t c = (.ok d, s')) : Made g x n c s ⟨e, c, d.context, d.patchedFields⟩ s'
  | gateway {n c s e w} (he : g.element n = .ok e) (hk : e.kind = .gateway w) :
      Made g x n c s ⟨e, c, c, []⟩ s

/-- The run goes on from the visit, to the element called `n`. -/
structure LeadsTo (g : Engine) (v : Visit) (n : String) : Prop where
  goesOn : ∀ t, v.element.kind = .task t → t.isEnd = false
  next : (g.resolveNext v.element.name).run v.after.lookup = .ok (some n)

/-- The run ends with the visit: the element is an end task or has no successor for the data. -/
def Halts (g : Engine) (v : Visit) : Prop :=
  (∃ t, v.element.kind = .task t ∧ t.isEnd = true) ∨
    (g.resolveNext v.element.name).run v.after.lookup = .ok none

/-- The executor fails at the task called `n`, which is `e`. -/
def Fails (g : Engine) (x : Executor σ) (n : String) (c : Context) (s : σ) (e : Element)
    (message : String) (s' : σ) : Prop :=
  g.element n = .ok e ∧ ∃ t, e.kind = .task t ∧ x s e t c = (.error message, s')

variable {g : Engine} {x : Executor σ} {n : String} {c : Context} {s s' : σ} {v : Visit}

theorem Made.element_eq (h : v.Made g x n c s s') : g.element n = .ok v.element := by
  cases h <;> assumption

theorem Made.name_eq (h : v.Made g x n c s s') : v.element.name = n :=
  (g.element_eq_ok_iff.1 h.element_eq).2

theorem LeadsTo.mem_names {m : String} (h : v.LeadsTo g m)
    (hn : v.element.name ∈ g.definition.names) : m ∈ g.definition.names := by
  have hf : g.Follows v.element.name m := ⟨_, Or.inl h.next⟩
  exact hf.mem_names hn

end Visit

/-- What a run has done after some more visits, before the element called `n`. -/
def Progress.after {σ : Type} (p : Progress σ) (vs : List Visit) (n : String) (s : σ) :
    Progress σ where
  current := n
  context := (vs.getLast?.map Visit.after).getD p.context
  visited := p.visited ++ (vs.map (·.element.name)).toArray
  patchedFields := p.patchedFields ++ (vs.flatMap (·.patchedFields)).toArray
  warnings := p.warnings ++ (vs.filterMap (Warning.of? ·.element)).toArray
  calls := p.calls ++ (vs.filterMap Visit.call?).toArray
  executor := s

theorem Progress.after_after {σ : Type} (p : Progress σ) (vs ws : List Visit) (m n : String)
    (s s' : σ) : (p.after vs m s).after ws n s' = p.after (vs ++ ws) n s' := by
  have hlast : ((vs ++ ws).getLast?.map Visit.after).getD p.context =
      (ws.getLast?.map Visit.after).getD ((vs.getLast?.map Visit.after).getD p.context) := by
    rw [List.getLast?_append]
    cases ws.getLast? <;> rfl
  simp only [Progress.after, hlast, List.map_append, List.flatMap_append, List.filterMap_append,
    Array.append_assoc, List.append_toArray]

theorem Progress.after_singleton {σ : Type} (p : Progress σ) (v : Visit) (n : String) (s : σ) :
    p.after [v] n s = ⟨n, v.after, p.visited.push v.element.name,
      p.patchedFields ++ v.patchedFields.toArray, p.warnings ++ (Warning.of? v.element).toArray,
      p.calls ++ v.call?.toArray, s⟩ := by
  have hone : ∀ {α : Type} (f : Visit → Option α), ([v].filterMap f).toArray = (f v).toArray := by
    intro α f
    cases h : f v <;> simp [h]
  simp [Progress.after, hone]

/-- The outcome of a run that made some visits. -/
def Outcome.ofVisits (c : Context) (vs : List Visit) : Outcome where
  visited := vs.map (·.element.name)
  context := (vs.getLast?.map Visit.after).getD c
  patchedFields := vs.flatMap (·.patchedFields)
  warnings := vs.filterMap (Warning.of? ·.element)

namespace Engine

variable {σ : Type} {g : Engine} {x : Executor σ} {p : Progress σ} {n : String} {s' : σ}

theorem halts_eq_true_iff {e : Element} :
    halts e = true ↔ ∃ t, e.kind = .task t ∧ t.isEnd = true := by
  unfold halts Element.task?
  cases e.kind <;> simp

theorem halts_eq_false_iff {e : Element} :
    halts e = false ↔ ∀ t, e.kind = .task t → t.isEnd = false := by
  unfold halts Element.task?
  cases e.kind <;> simp

theorem perform_of_made {v : Visit} (h : v.Made g x n p.context p.executor s') :
    perform x v.element p = (.ok (), { p with
      context := v.after
      patchedFields := p.patchedFields ++ v.patchedFields.toArray
      calls := p.calls ++ v.call?.toArray
      executor := s' }) := by
  generalize hc : p.context = c, hs : p.executor = s at h
  cases h with
  | task he hk hx =>
    subst hc hs
    simp [perform, hk, hx, Visit.call?, Element.task?]
  | gateway he hk =>
    subst hc hs
    simp [perform, hk, Visit.call?, Element.task?]

/-- After a visit the run moves on just if the element has a successor and is no end task. -/
theorem step_of_made {v : Visit} (hm : v.Made g x p.current p.context p.executor s') :
    ∃ next, (g.resolveNext v.element.name).run v.after.lookup = .ok next ∧
      g.step x p = match next, halts v.element with
        | some m, false => (p.after [v] m s', none)
        | _, _ => (p.after [v] p.current s', some .halted) := by
  obtain ⟨r, hr, -, hw, -⟩ := g.run_resolve hm.element_eq v.after.lookup
  have hnext : (g.resolveNext v.element.name).run v.after.lookup = .ok r.next := by
    rw [hm.name_eq, run_resolveNext, hr]
    rfl
  have hperform := perform_of_made (p := { p with visited := p.visited.push v.element.name }) hm
  refine ⟨r.next, hnext, ?_⟩
  unfold step
  rw [hm.element_eq]
  simp only [hperform, hr, hw]
  cases r.next <;> cases halts v.element <;> simp only [Progress.after_singleton]

theorem step_of_leadsTo {v : Visit} {m : String}
    (hm : v.Made g x p.current p.context p.executor s') (hl : v.LeadsTo g m) :
    g.step x p = (p.after [v] m s', none) := by
  obtain ⟨next, hn, hstep⟩ := step_of_made hm
  rw [hl.next] at hn
  cases hn
  rw [hstep, halts_eq_false_iff.2 hl.goesOn]

theorem step_of_halts {v : Visit} (hm : v.Made g x p.current p.context p.executor s')
    (hh : v.Halts g) : g.step x p = (p.after [v] p.current s', some .halted) := by
  obtain ⟨next, hn, hstep⟩ := step_of_made hm
  rw [hstep]
  rcases hh with hend | hnone
  · rw [halts_eq_true_iff.2 hend]
    cases next <;> rfl
  · rw [hnone] at hn
    cases hn
    rfl

theorem step_of_fails {e : Element} {message : String}
    (hf : Visit.Fails g x p.current p.context p.executor e message s') :
    g.step x p = ({ p with
        visited := p.visited.push e.name
        calls := p.calls.push ⟨e, p.context⟩
        executor := s' }, some (.failed (.taskFailed e.name message))) := by
  obtain ⟨he, t, hk, hx⟩ := hf
  unfold step
  rw [he]
  simp [perform, hk, hx]

/-- Before an element of the process, no other step is possible. -/
theorem step_cases (g : Engine) (x : Executor σ) {n : String} (hn : n ∈ g.definition.names)
    (c : Context) (s : σ) :
    (∃ (v : Visit) (s' : σ) (m : String), v.Made g x n c s s' ∧ v.LeadsTo g m) ∨
      (∃ (v : Visit) (s' : σ), v.Made g x n c s s' ∧ v.Halts g) ∨
      ∃ e message s', Visit.Fails g x n c s e message s' := by
  obtain ⟨e, he, hname⟩ := Definition.mem_names_iff.1 hn
  have he : g.element n = .ok e := g.element_eq_ok_iff.2 ⟨he, hname⟩
  -- a visit that is made either leads somewhere or halts the run
  have hmade : ∀ (v : Visit) (s' : σ), v.Made g x n c s s' →
      (∃ m, v.LeadsTo g m) ∨ v.Halts g := by
    intro v s' hm
    obtain ⟨next, hnext, -⟩ := g.run_resolveNext_of_mem hn v.after.lookup
    rw [← hm.name_eq] at hnext
    cases hend : halts v.element with
    | true => exact Or.inr (Or.inl (halts_eq_true_iff.1 hend))
    | false =>
      cases next with
      | none => exact Or.inr (Or.inr hnext)
      | some m => exact Or.inl ⟨m, halts_eq_false_iff.1 hend, hnext⟩
  have hcases : (∃ (v : Visit) (s' : σ), v.Made g x n c s s') ∨
      ∃ message s', Visit.Fails g x n c s e message s' := by
    cases hk : e.kind with
    | gateway w => exact Or.inl ⟨_, _, .gateway he hk⟩
    | task t =>
      cases hx : x s e t c with
      | mk r s' =>
        cases r with
        | error message => exact Or.inr ⟨message, s', he, t, hk, hx⟩
        | ok d => exact Or.inl ⟨_, _, .task he hk hx⟩
  rcases hcases with ⟨v, s', hm⟩ | ⟨message, s', hf⟩
  · rcases hmade v s' hm with ⟨m, hl⟩ | hh
    · exact Or.inl ⟨v, s', m, hm, hl⟩
    · exact Or.inr (Or.inl ⟨v, s', hm, hh⟩)
  · exact Or.inr (Or.inr ⟨e, message, s', hf⟩)

end Engine

end Workflow
