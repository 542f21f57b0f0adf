import Workflow.Proofs.Agreement

/-! The limit of steps cuts a run off and does nothing else. Under a larger limit the run repeats what
it did under a smaller one, and goes on only from where it was cut off. -/

namespace Workflow

variable {σ : Type} {x : Executor σ} {g : Engine}

/-- Calls made one after another of an executor in state `s`, its answers, and its state after
them. -/
inductive Executor.Answers (x : Executor σ) :
    σ → List Call → List (Except String Completion) → σ → Prop
  | nil {s} : Answers x s [] [] s
  | cons {s k t a s' ks as s''} (hk : k.element.kind = .task t)
      (hx : x s k.element t k.context = (a, s')) (rest : Answers x s' ks as s'') :
      Answers x s (k :: ks) (a :: as) s''

namespace Executor.Answers

theorem append {s ks as s' ls bs s''} (h : x.Answers s ks as s') (h' : x.Answers s' ls bs s'') :
    x.Answers s (ks ++ ls) (as ++ bs) s'' := by
  induction h with
  | nil => exact h'
  | cons hk hx _ ih => exact .cons hk hx (ih h')

theorem length_eq {s ks as s'} (h : x.Answers s ks as s') : as.length = ks.length := by
  induction h with
  | nil => rfl
  | cons _ _ _ ih => simp only [List.length_cons, ih]

end Executor.Answers

namespace Visit

theorem filterMap_call?_cons (v : Visit) (vs : List Visit) :
    (v :: vs).filterMap call? = v.call?.toList ++ vs.filterMap call? := by
  cases h : v.call? <;> simp [h]

/-- A visit that is made makes at most one call, which does not fail. -/
theorem Made.answers {n c s s'} {v : Visit} (h : v.Made g x n c s s') :
    ∃ as, x.Answers s v.call?.toList as s' ∧ ∀ message, .error message ∉ as := by
  cases h with
  | task he hk hx =>
    rename_i d
    refine ⟨[.ok d], ?_, fun message => by simp⟩
    simp only [call?, Element.task?, hk]
    exact .cons hk hx .nil
  | gateway he hk =>
    refine ⟨[], ?_, fun message => List.not_mem_nil⟩
    simp only [call?, Element.task?, hk]
    exact .nil

theorem Fails.answers {n c s e message s'} (h : Visit.Fails g x n c s e message s') :
    x.Answers s [⟨e, c⟩] [.error message] s' := by
  obtain ⟨-, t, hk, hx⟩ := h
  exact .cons hk hx .nil

end Visit

namespace Engine

theorem Path.append {n c s vs m c' s' ws k c'' s''} (h : g.Path x n c s vs m c' s')
    (h' : g.Path x m c' s' ws k c'' s'') : g.Path x n c s (vs ++ ws) k c'' s'' := by
  induction h with
  | nil => exact h'
  | cons hm hl _ ih => exact .cons hm hl (ih h')

theorem Path.walk {n c s vs m c' s' ws s''} (h : g.Path x n c s vs m c' s')
    (h' : g.Walk x m c' s' ws s'') : g.Walk x n c s (vs ++ ws) s'' := by
  obtain ⟨us, k, c₁, s₁, v, rfl, hp, hm, hh⟩ := h'
  exact ⟨vs ++ us, k, c₁, s₁, v, (List.append_assoc ..).symm, h.append hp, hm, hh⟩

/-- The first visits of a path are a path. -/
theorem Path.take {n c s vs m c' s'} (h : g.Path x n c s vs m c' s') (j : Nat) :
    ∃ k c₁ s₁, g.Path x n c s (vs.take j) k c₁ s₁ := by
  induction h generalizing j with
  | nil => exact ⟨_, _, _, by rw [List.take_nil]; exact .nil⟩
  | cons hm hl _ ih =>
    cases j with
    | zero => exact ⟨_, _, _, .nil⟩
    | succ j =>
      obtain ⟨k, c₁, s₁, hp⟩ := ih j
      exact ⟨k, c₁, s₁, .cons hm hl hp⟩

/-- No call of a path fails. -/
theorem Path.answers {n c s vs m c' s'} (h : g.Path x n c s vs m c' s') :
    ∃ as, x.Answers s (vs.filterMap Visit.call?) as s' ∧ ∀ message, .error message ∉ as := by
  induction h with
  | nil => exact ⟨[], .nil, fun message => List.not_mem_nil⟩
  | cons hm hl _ ih =>
    obtain ⟨as, has, hok⟩ := hm.answers
    obtain ⟨bs, hbs, hok'⟩ := ih
    refine ⟨as ++ bs, Visit.filterMap_call?_cons .. ▸ has.append hbs, fun message => ?_⟩
    simp [hok message, hok' message]

theorem Walk.answers {n c s vs s'} (h : g.Walk x n c s vs s') :
    ∃ as, x.Answers s (vs.filterMap Visit.call?) as s' ∧ ∀ message, .error message ∉ as := by
  obtain ⟨ws, m, c₁, s₁, v, rfl, hp, hm, -⟩ := h
  obtain ⟨as, has, hok⟩ := hp.answers
  obtain ⟨bs, hbs, hok'⟩ := hm.answers
  refine ⟨as ++ bs, ?_, fun message => by simp [hok message, hok' message]⟩
  rw [List.filterMap_append, Visit.filterMap_call?_cons, List.filterMap_nil, List.append_nil]
  exact has.append hbs

/-- The engine with another limit of steps. -/
def withLimit (g : Engine) (m : Nat) : Engine :=
  { g with settings := { g.settings with maxSteps := m } }

theorem agrees_withLimit (g : Engine) (m : Nat) : g.Agrees (g.withLimit m) :=
  ⟨fun _ => rfl, fun _ _ => rfl⟩

section

variable {e : Element} (hstart : g.definition.starts = [e])
include hstart

theorem run_withLimit_of_path {c s vs n c' s'} (h : g.Path x e.name c s vs n c' s') :
    (g.withLimit vs.length).run x s c = ⟨.error (.stepLimit vs.length), vs.map (·.element.name),
      vs.filterMap Visit.call?, s'⟩ :=
  run_of_path (g := g.withLimit vs.length) hstart ((g.agrees_withLimit vs.length).path h) rfl

theorem run_withLimit_of_walk {c s vs s'} (h : g.Walk x e.name c s vs s') {m : Nat}
    (hlen : vs.length ≤ m) :
    (g.withLimit m).run x s c = ⟨.ok (Outcome.ofVisits c vs), vs.map (·.element.name),
      vs.filterMap Visit.call?, s'⟩ :=
  run_of_walk (g := g.withLimit m) hstart ((g.agrees_withLimit m).walk h) hlen

theorem run_withLimit_of_fails {c s vs n c₁ s₁ f message s'}
    (h : g.Path x e.name c s vs n c₁ s₁) (hf : Visit.Fails g x n c₁ s₁ f message s') {m : Nat}
    (hlen : vs.length < m) :
    (g.withLimit m).run x s c = ⟨.error (.taskFailed f.name message),
      vs.map (·.element.name) ++ [f.name], vs.filterMap Visit.call? ++ [⟨f, c₁⟩], s'⟩ :=
  run_of_fails (g := g.withLimit m) hstart ((g.agrees_withLimit m).path h)
    ((g.agrees_withLimit m).fails hf) hlen

/-- A run makes the calls of every path from the start that its limit has room for. -/
theorem calls_of_path {c s vs n c' s'} (h : g.Path x e.name c s vs n c' s') {m : Nat}
    (hlen : vs.length ≤ m) :
    vs.filterMap Visit.call? <+: ((g.withLimit m).run x s c).calls := by
  obtain ⟨k, rfl⟩ := Nat.exists_eq_add_of_le hlen
  -- what the run does after the path is a run of its own, from where the path ends
  rcases g.path_cases x k (h.mem_names (mem_names_of_starts hstart)) c' s' with
    ⟨ws, n', c₁, s₁, hp, rfl⟩ | ⟨ws, s'', hw, hk⟩ | ⟨ws, n', c₁, s₁, f, message, s'', hp, hk, hf⟩
  · rw [← List.length_append, run_withLimit_of_path hstart (h.append hp), List.filterMap_append]
    exact List.prefix_append ..
  · rw [run_withLimit_of_walk hstart (h.walk hw) (by rw [List.length_append]; omega),
      List.filterMap_append]
    exact List.prefix_append ..
  · rw [run_withLimit_of_fails hstart (h.append hp) hf (by rw [List.length_append]; omega),
      List.filterMap_append, List.append_assoc]
    exact List.prefix_append ..

/-- A run is the same under every larger limit, or it was cut off in the midst of the longer one. -/
theorem run_withLimit_of_le {m m' : Nat} (hm : m ≤ m') (x : Executor σ) (s : σ) (c : Context) :
    (((g.withLimit m).run x s c).result ≠ .error (.stepLimit m) →
      (g.withLimit m').run x s c = (g.withLimit m).run x s c) ∧
    (((g.withLimit m).run x s c).result = .error (.stepLimit m) →
      ((g.withLimit m).run x s c).calls <+: ((g.withLimit m').run x s c).calls) := by
  rcases g.path_cases x m (mem_names_of_starts hstart) c s with
    ⟨vs, n, c₁, s₁, hp, rfl⟩ | ⟨vs, s', hw, hlen⟩ | ⟨vs, n, c₁, s₁, f, message, s', hp, hlen, hf⟩
  · rw [run_withLimit_of_path hstart hp]
    exact ⟨fun hne => absurd rfl hne, fun _ => calls_of_path hstart hp hm⟩
  · rw [run_withLimit_of_walk hstart hw hlen, run_withLimit_of_walk hstart hw (Nat.le_trans hlen hm)]
    exact ⟨fun _ => rfl, fun _ => List.prefix_refl _⟩
  · rw [run_withLimit_of_fails hstart hp hf hlen,
      run_withLimit_of_fails hstart hp hf (Nat.lt_of_lt_of_le hlen hm)]
    exact ⟨fun _ => rfl, fun _ => List.prefix_refl _⟩

/-- Only a run that reaches its end succeeds. -/
theorem exists_walk_of_run_eq_ok {m : Nat} {s : σ} {c : Context} {o : Outcome}
    (h : ((g.withLimit m).run x s c).result = .ok o) :
    ∃ vs s', g.Walk x e.name c s vs s' ∧ o = Outcome.ofVisits c vs := by
  rcases g.path_cases x m (mem_names_of_starts hstart) c s with
    ⟨vs, n, c₁, s₁, hp, rfl⟩ | ⟨vs, s', hw, hlen⟩ | ⟨vs, n, c₁, s₁, f, message, s', hp, hlen, hf⟩
  · rw [run_withLimit_of_path hstart hp] at h
    cases h
  · rw [run_withLimit_of_walk hstart hw hlen] at h
    cases h
    exact ⟨vs, s', hw, rfl⟩
  · rw [run_withLimit_of_fails hstart hp hf hlen] at h
    cases h

/-- A limit below the number of visits ends within the path before the last one. -/
theorem run_withLimit_of_lt_walk {c s vs s'} (h : g.Walk x e.name c s vs s') {j : Nat}
    (hj : j < vs.length) : ((g.withLimit j).run x s c).result = .error (.stepLimit j) := by
  obtain ⟨ws, n, c₁, s₁, v, rfl, hp, -⟩ := h
  rw [List.length_append, List.length_singleton] at hj
  obtain ⟨n', c₂, s₂, hj'⟩ := hp.take j
  have hrun := run_withLimit_of_path hstart hj'
  rw [List.length_take_of_le (by omega)] at hrun
  rw [hrun]

theorem length_calls_le (m : Nat) (x : Executor σ) (s : σ) (c : Context) :
    ((g.withLimit m).run x s c).calls.length ≤ m := by
  rcases g.path_cases x m (mem_names_of_starts hstart) c s with
    ⟨vs, n, c₁, s₁, hp, rfl⟩ | ⟨vs, s', hw, hlen⟩ | ⟨vs, n, c₁, s₁, f, message, s', hp, hlen, hf⟩
  · rw [run_withLimit_of_path hstart hp]
    exact List.length_filterMap_le ..
  · rw [run_withLimit_of_walk hstart hw hlen]
    exact Nat.le_trans (List.length_filterMap_le ..) hlen
  · rw [run_withLimit_of_fails hstart hp hf hlen, List.length_append, List.length_singleton]
    exact Nat.lt_of_le_of_lt (List.length_filterMap_le ..) hlen

/-- Of the calls that a run makes, only the last one can have failed. -/
theorem exists_answers (m : Nat) (x : Executor σ) (s : σ) (c : Context) :
    ∃ as, x.Answers s ((g.withLimit m).run x s c).calls as ((g.withLimit m).run x s c).executor ∧
      ∀ i message, as[i]? = some (.error message) →
        i + 1 = ((g.withLimit m).run x s c).calls.length := by
  rcases g.path_cases x m (mem_names_of_starts hstart) c s with
    ⟨vs, n, c₁, s₁, hp, rfl⟩ | ⟨vs, s', hw, hlen⟩ | ⟨vs, n, c₁, s₁, f, message, s', hp, hlen, hf⟩
  · rw [run_withLimit_of_path hstart hp]
    obtain ⟨as, has, hok⟩ := hp.answers
    exact ⟨as, has, fun i message hi => absurd (List.mem_of_getElem? hi) (hok message)⟩
  · rw [run_withLimit_of_walk hstart hw hlen]
    obtain ⟨as, has, hok⟩ := hw.answers
    exact ⟨as, has, fun i message hi => absurd (List.mem_of_getElem? hi) (hok message)⟩
  · rw [run_withLimit_of_fails hstart hp hf hlen]
    obtain ⟨as, has, hok⟩ := hp.answers
    have hall := has.append hf.answers
    refine ⟨_, hall, fun i message' hi => ?_⟩
    rw [← hall.length_eq, List.length_append, List.length_singleton]
    obtain ⟨hlt, -⟩ := List.getElem?_eq_some_iff.1 hi
    rw [List.length_append, List.length_singleton] at hlt
    by_contra hne
    rw [List.getElem?_append_left (by omega)] at hi
    exact hok message' (List.mem_of_getElem? hi)

/-- A run that is not cut off is the same under every larger limit. One that is cut off has made
calls that every longer one makes too. A run that succeeds needs as many steps as it has visits, and
with fewer it is cut off. There are never more calls than steps, and none after one that fails. -/
theorem run_withLimit (x : Executor σ) (s : σ) (c : Context) :
    (∀ m m', m ≤ m' →
      (((g.withLimit m).run x s c).result ≠ .error (.stepLimit m) →
        (g.withLimit m').run x s c = (g.withLimit m).run x s c) ∧
      (((g.withLimit m).run x s c).result = .error (.stepLimit m) →
        ((g.withLimit m).run x s c).calls <+: ((g.withLimit m').run x s c).calls)) ∧
    (∀ m o, ((g.withLimit m).run x s c).result = .ok o →
      ((g.withLimit o.visited.length).run x s c).result = .ok o ∧
      ∀ j < o.visited.length, ((g.withLimit j).run x s c).result = .error (.stepLimit j)) ∧
    (∀ m, ((g.withLimit m).run x s c).calls.length ≤ m ∧
      ∃ as, x.Answers s ((g.withLimit m).run x s c).calls as ((g.withLimit m).run x s c).executor ∧
        ∀ i message, as[i]? = some (.error message) →
          i + 1 = ((g.withLimit m).run x s c).calls.length) := by
  refine ⟨fun m m' hm => run_withLimit_of_le hstart hm x s c, fun m o ho => ?_,
    fun m => ⟨length_calls_le hstart m x s c, exists_answers hstart m x s c⟩⟩
  obtain ⟨vs, s', hw, rfl⟩ := exists_walk_of_run_eq_ok hstart ho
  have hvisited : (Outcome.ofVisits c vs).visited.length = vs.length := List.length_map _
  rw [hvisited]
  exact ⟨by rw [run_withLimit_of_walk hstart hw (Nat.le_refl _)],
    fun j hj => run_withLimit_of_lt_walk hstart hw hj⟩

end

/-- Three steps are enough to renew and two are not; where the third step fails, more do not help. -/
theorem run_withLimit_of_renewal :
    (∃ o, ((renewal.withLimit 7).run (answering "") 0 .empty).result = .ok o ∧
      o.visited = ["ask", "check", "renew"] ∧
      ((renewal.withLimit 3).run (answering "") 0 .empty).result = .ok o ∧
      ((renewal.withLimit 2).run (answering "") 0 .empty).result = .error (.stepLimit 2)) ∧
    ((renewal.withLimit 2).run (answering "") 0 .empty).calls <+:
      ((renewal.withLimit 7).run (answering "") 0 .empty).calls ∧
    (renewal.withLimit 7).run (answering "renew") 0 .empty =
      (renewal.withLimit 3).run (answering "renew") 0 .empty := by
  have hstart : renewal.definition.starts = [_] := rfl
  obtain ⟨hlimits, hexact, -⟩ := run_withLimit hstart (answering "") 0 .empty
  obtain ⟨hthree, hfewer⟩ := hexact 7 _ rfl
  refine ⟨⟨_, rfl, rfl, hthree, hfewer 2 (by decide)⟩, (hlimits 2 7 (by decide)).2 rfl, ?_⟩
  have hfailed : ((renewal.withLimit 3).run (answering "renew") 0 .empty).result =
      .error (.taskFailed "renew" "offline") := rfl
  refine ((run_withLimit hstart (answering "renew") 0 .empty).1 3 7 (by decide)).1 ?_
  rw [hfailed]
  simp

end Engine

end Workflow
