import Mathlib.Logic.Relation
import Workflow.Proofs.Step

/-! Runs. Whatever the limit, a run follows one path of visits, each leading to the next, until it
halts, the executor fails, or the path is as long as the limit. -/

namespace Workflow.Engine

variable {σ : Type}

/-- A path of visits from the element called `n`, with data `c` and an executor in state `s`, to
where a run then stands. Each visit leads to the element visited next. -/
inductive Path (g : Engine) (x : Executor σ) :
    String → Context → σ → List Visit → String → Context → σ → Prop
  | nil {n c s} : Path g x n c s [] n c s
  | cons {n c s v s' m vs n' c' s''} (hm : v.Made g x n c s s') (hl : v.LeadsTo g m)
      (rest : Path g x m v.after s' vs n' c' s'') : Path g x n c s (v :: vs) n' c' s''

/-- All visits of a run that halts: a path, and a last visit that ends it. -/
def Walk (g : Engine) (x : Executor σ) (n : String) (c : Context) (s : σ) (vs : List Visit)
    (s' : σ) : Prop :=
  ∃ ws m c₁ s₁ v, vs = ws ++ [v] ∧ Path g x n c s ws m c₁ s₁ ∧ v.Made g x m c₁ s₁ s' ∧ v.Halts g

variable {g : Engine} {x : Executor σ}

theorem Path.context_eq {n c s vs m c' s'} (h : g.Path x n c s vs m c' s') :
    (vs.getLast?.map Visit.after).getD c = c' := by
  induction h with
  | nil => rfl
  | @cons n c s v s' m vs n' c' s'' hm hl rest ih =>
    rw [← ih, List.getLast?_cons]
    cases vs.getLast? <;> rfl

theorem Path.mem_names {n c s vs m c' s'} (h : g.Path x n c s vs m c' s')
    (hn : n ∈ g.definition.names) : m ∈ g.definition.names := by
  induction h with
  | nil => exact hn
  | cons hm hl rest ih => exact ih (hl.mem_names (hm.name_eq ▸ hn))

theorem Path.forall_made {n c s vs m c' s'} (h : g.Path x n c s vs m c' s') :
    ∀ v ∈ vs, (∃ k c₁ s₁ s₂, v.Made g x k c₁ s₁ s₂) ∧ ∃ k, v.LeadsTo g k := by
  induction h with
  | nil =>
    intro v hv
    cases hv
  | cons hm hl _ ih =>
    intro v hv
    rcases List.mem_cons.1 hv with rfl | hv
    · exact ⟨⟨_, _, _, _, hm⟩, _, hl⟩
    · exact ih v hv

theorem Walk.forall_made {n c s vs s'} (h : g.Walk x n c s vs s') :
    ∀ v ∈ vs, ∃ k c₁ s₁ s₂, v.Made g x k c₁ s₁ s₂ := by
  obtain ⟨ws, k, c₁, s₁, v, rfl, hp, hm, -⟩ := h
  intro w hw
  rcases List.mem_append.1 hw with hw | hw
  · exact (hp.forall_made w hw).1
  · rw [List.mem_singleton.1 hw]
    exact ⟨_, _, _, _, hm⟩

/-- As many steps as a path has visits are that path. -/
theorem drive_path {n c s vs m c' s'} (h : g.Path x n c s vs m c' s') (k : Nat)
    {p : Progress σ} (hn : p.current = n) (hc : p.context = c) (hs : p.executor = s) :
    g.drive x (vs.length + k) p = g.drive x k (p.after vs m s') := by
  induction h generalizing p with
  | nil =>
    subst hn hc hs
    simp [Progress.after]
  | @cons n c s v s' m vs n' c' s'' hm hl rest ih =>
    subst hn hc hs
    have hstep := step_of_leadsTo hm hl
    rw [List.length_cons, Nat.add_right_comm, drive, hstep]
    have hrest := ih (p := p.after [v] m s') rfl (by rw [Progress.after_singleton]) rfl
    rw [Progress.after_after] at hrest
    exact hrest

theorem drive_of_stop {vs m c₁ s₁} {p q : Progress σ} {stop : Stop} {k : Nat}
    (h : g.Path x p.current p.context p.executor vs m c₁ s₁) (hlen : vs.length < k)
    (hstep : g.step x (p.after vs m s₁) = (q, some stop)) : g.drive x k p = (q, stop) := by
  obtain ⟨j, rfl⟩ := Nat.exists_eq_add_of_lt hlen
  rw [Nat.add_assoc, drive_path h (j + 1) rfl rfl rfl, drive, hstep]

theorem Walk.cons {n c s s' m vs s''} {v : Visit} (hm : v.Made g x n c s s') (hl : v.LeadsTo g m)
    (h : g.Walk x m v.after s' vs s'') : g.Walk x n c s (v :: vs) s'' := by
  obtain ⟨ws, m', c₁, s₁, w, rfl, hpath, hw, hh⟩ := h
  exact ⟨v :: ws, m', c₁, s₁, w, rfl, .cons hm hl hpath, hw, hh⟩

/-- From an element of the process, `k` steps are a path, or a run halts or fails before. -/
theorem path_cases (g : Engine) (x : Executor σ) (k : Nat) {n : String}
    (hn : n ∈ g.definition.names) (c : Context) (s : σ) :
    (∃ vs m c₁ s₁, g.Path x n c s vs m c₁ s₁ ∧ vs.length = k) ∨
    (∃ vs s', g.Walk x n c s vs s' ∧ vs.length ≤ k) ∨
    ∃ vs m c₁ s₁ f message s', g.Path x n c s vs m c₁ s₁ ∧ vs.length < k ∧
      Visit.Fails g x m c₁ s₁ f message s' := by
  -- the limit goes down with each visit, and the rest of the run starts where the visit leads
  induction k generalizing n c s with
  | zero => exact Or.inl ⟨[], n, c, s, .nil, rfl⟩
  | succ k ih =>
    rcases g.step_cases x hn c s with ⟨v, s', m, hm, hl⟩ | ⟨v, s', hm, hh⟩ | ⟨f, message, s', hf⟩
    · have hnext := hl.mem_names (hm.name_eq ▸ hn)
      rcases ih hnext v.after s' with ⟨vs, m', c₁, s₁, hpath, hlen⟩ | ⟨vs, s'', hwalk, hlen⟩ |
        ⟨vs, m', c₁, s₁, f, message, s'', hpath, hlen, hf⟩
      · exact Or.inl ⟨v :: vs, m', c₁, s₁, .cons hm hl hpath, congrArg Nat.succ hlen⟩
      · exact Or.inr (Or.inl ⟨v :: vs, s'', .cons hm hl hwalk, Nat.succ_le_succ hlen⟩)
      · exact Or.inr (Or.inr ⟨v :: vs, m', c₁, s₁, f, message, s'', .cons hm hl hpath,
          Nat.succ_lt_succ hlen, hf⟩)
    · exact Or.inr (Or.inl ⟨[v], s', ⟨[], n, c, s, v, rfl, .nil, hm, hh⟩, Nat.succ_pos k⟩)
    · exact Or.inr (Or.inr ⟨[], n, c, s, f, message, s', .nil, Nat.succ_pos k, hf⟩)

theorem mem_names_of_starts {e : Element} (hstart : g.definition.starts = [e]) :
    e.name ∈ g.definition.names := by
  have he : e ∈ g.definition.starts := hstart ▸ List.mem_singleton_self e
  exact Definition.mem_names_iff.2 ⟨e, (List.mem_filter.1 he).1, rfl⟩

theorem run_eq_report {e : Element} (hstart : g.definition.starts = [e]) (c : Context) (s : σ) :
    g.run x s c = Progress.report
      (g.drive x g.settings.maxSteps (Progress.begin e.name c s)).1
      (g.drive x g.settings.maxSteps (Progress.begin e.name c s)).2 := by
  have hs : g.start = .ok e := by simp [start, Definition.start, hstart]
  rw [run, hs]

theorem run_of_path {e : Element} (hstart : g.definition.starts = [e]) {c s vs m c' s'}
    (h : g.Path x e.name c s vs m c' s') (hlen : vs.length = g.settings.maxSteps) :
    g.run x s c = ⟨.error (.stepLimit g.settings.maxSteps), vs.map (·.element.name),
      vs.filterMap Visit.call?, s'⟩ := by
  have hdrive := drive_path h 0 (p := Progress.begin e.name c s) rfl rfl rfl
  rw [Nat.add_zero, hlen] at hdrive
  rw [run_eq_report hstart, hdrive]
  simp [drive, Progress.report, Progress.after, Progress.begin]

theorem run_of_walk {e : Element} (hstart : g.definition.starts = [e]) {c s vs s'}
    (h : g.Walk x e.name c s vs s') (hlen : vs.length ≤ g.settings.maxSteps) :
    g.run x s c = ⟨.ok (Outcome.ofVisits c vs), vs.map (·.element.name),
      vs.filterMap Visit.call?, s'⟩ := by
  obtain ⟨ws, m, c₁, s₁, v, rfl, hpath, hm, hh⟩ := h
  have hlen : ws.length < g.settings.maxSteps := by
    rw [List.length_append, List.length_singleton] at hlen
    omega
  have hc : ((Progress.begin e.name c s).after ws m s₁).context = c₁ := hpath.context_eq
  have hstep := step_of_halts (p := (Progress.begin e.name c s).after ws m s₁) (hc ▸ hm) hh
  rw [run_eq_report hstart, drive_of_stop hpath hlen hstep, Progress.after_after]
  simp [Progress.report, Progress.after, Progress.begin, Outcome.ofVisits]

theorem run_of_fails {e : Element} (hstart : g.definition.starts = [e]) {c s vs m c₁ s₁}
    (h : g.Path x e.name c s vs m c₁ s₁) {f message s'}
    (hf : Visit.Fails g x m c₁ s₁ f message s') (hlen : vs.length < g.settings.maxSteps) :
    g.run x s c = ⟨.error (.taskFailed f.name message), vs.map (·.element.name) ++ [f.name],
      vs.filterMap Visit.call? ++ [⟨f, c₁⟩], s'⟩ := by
  have hc : ((Progress.begin e.name c s).after vs m s₁).context = c₁ := h.context_eq
  have hstep := step_of_fails (p := (Progress.begin e.name c s).after vs m s₁) (hc ▸ hf)
  rw [run_eq_report hstart, drive_of_stop h hlen hstep, hc]
  simp [Progress.report, Progress.after, Progress.begin]

theorem run_of_length_starts_ne_one (g : Engine) (x : Executor σ) (s : σ) (c : Context)
    (h : g.definition.starts.length ≠ 1) :
    g.run x s c = ⟨.error (.definition (.startCount g.definition.starts.length)), [], [], s⟩ := by
  have hs : g.start = .error (.startCount g.definition.starts.length) := by
    unfold start Definition.start
    split
    · rename_i e he
      exact absurd (by rw [he]; rfl) h
    · rfl
  rw [run, hs]

/-- The last task is an end task, although it links back to the first. -/
def renewal : Engine where
  definition := ⟨"renewal", "Renewal", [
    ⟨"ask", "Ask", .task
      ⟨"manual", true, false, false, some "check", ⟨"null"⟩, ⟨"null"⟩, none, []⟩⟩,
    ⟨"check", "Check", .gateway
      ⟨"or", .single ⟨"answer", .equal, .text "yes"⟩, some "renew", none⟩⟩,
    ⟨"renew", "Renew", .task
      ⟨"rpc", false, true, true, some "ask", ⟨"null"⟩, ⟨"null"⟩, none, ["until"]⟩⟩]⟩
  settings := { maxSteps := 3 }
  index := ⟨.ofList ["ask", "check", "renew"].zipIdx⟩
  indexed := rfl

/-- Answers with yes, and fails at one element. It counts its calls. -/
def answering (offline : String) : Executor Nat := fun n e t c =>
  if e.name = offline then (.error "offline", n + 1)
  else (.ok ⟨c.insert "answer" (.text "yes"), t.modelPatchFields⟩, n + 1)

/-- With an engine that was built, just the names of no element fail to resolve, no resolution
leaves the process, and a run that starts fails only by its executor or its limit. -/
theorem resolution_and_run_safe {p : Definition} {settings : Settings} {g : Engine}
    (h : build p settings = .ok g) :
    (∀ n look, n ∉ p.names → (g.resolveNext n).run look = .error (.unknownElement n) ∧
      (g.resolve n).run look = .error (.unknownElement n)) ∧
    (∀ n look, n ∈ p.names →
      (∃ next, (g.resolveNext n).run look = .ok next ∧ ∀ m, next = some m → m ∈ p.names) ∧
      ∃ r, (g.resolve n).run look = .ok r ∧ ∀ m, r.next = some m → m ∈ p.names) ∧
    (∀ n m, n ∈ p.names → Relation.ReflTransGen g.Follows n m → m ∈ p.names) ∧
    (∀ (σ : Type) (x : Executor σ) (s : σ) (c : Context),
      (p.starts.length ≠ 1 →
        g.run x s c = ⟨.error (.definition (.startCount p.starts.length)), [], [], s⟩) ∧
      (p.starts.length = 1 →
        (∃ o, (g.run x s c).result = .ok o) ∨
        (g.run x s c).result = .error (.stepLimit settings.maxSteps) ∨
        ∃ e t message c₁ s₁, e ∈ p.elements ∧ e.kind = .task t ∧
          x s₁ e t c₁ = (.error message, (g.run x s c).executor) ∧
          (g.run x s c).calls.getLast? = some ⟨e, c₁⟩ ∧
          (g.run x s c).result = .error (.taskFailed e.name message))) := by
  obtain ⟨rfl, rfl⟩ := build_eq_ok h
  refine ⟨fun n look hn => ⟨?_, g.run_resolve_of_not_mem hn look⟩, fun n look hn =>
    ⟨g.run_resolveNext_of_mem hn look, g.run_resolve_of_mem hn look⟩, fun n m hn hnm => ?_,
    fun σ x s c => ⟨g.run_of_length_starts_ne_one x s c, fun hone => ?_⟩⟩
  · rw [run_resolveNext, g.run_resolve_of_not_mem hn look]
    rfl
  · induction hnm with
    | refl => exact hn
    | tail _ hlast ih => exact hlast.mem_names ih
  · obtain ⟨e, hstart⟩ := List.length_eq_one_iff.1 hone
    rcases g.path_cases x g.settings.maxSteps (mem_names_of_starts hstart) c s with
      ⟨vs, m, c₁, s₁, hpath, hlen⟩ | ⟨vs, s', hwalk, hlen⟩ |
      ⟨vs, m, c₁, s₁, f, message, s', hpath, hlen, hf⟩
    · exact Or.inr (Or.inl (by rw [run_of_path hstart hpath hlen]))
    · exact Or.inl ⟨_, by rw [run_of_walk hstart hwalk hlen]⟩
    · rw [run_of_fails hstart hpath hf hlen]
      obtain ⟨hf, t, hk, hx⟩ := hf
      exact Or.inr (Or.inr ⟨f, t, message, c₁, s₁, (g.element_eq_ok_iff.1 hf).1, hk, hx,
        by simp, rfl⟩)

theorem resolution_and_run_safe_of_renewal :
    build renewal.definition { maxSteps := 3 } = .ok renewal ∧
    (renewal.resolveNext "lost").run (fun _ => none) = .error (.unknownElement "lost") ∧
    ∃ e t message c₁ s₁, e ∈ renewal.definition.elements ∧ e.kind = .task t ∧
      answering "renew" s₁ e t c₁ = (.error message, 2) ∧
      (renewal.run (answering "renew") 0 .empty).result =
        .error (.taskFailed e.name message) := by
  have hbuild : build renewal.definition { maxSteps := 3 } = .ok renewal := rfl
  obtain ⟨hunknown, -, -, hrun⟩ := resolution_and_run_safe hbuild
  have hresult : (renewal.run (answering "renew") 0 .empty).result =
      .error (.taskFailed "renew" "offline") := rfl
  refine ⟨hbuild, (hunknown "lost" (fun _ => none) (by decide)).1, ?_⟩
  rcases (hrun Nat (answering "renew") 0 .empty).2 rfl with ⟨o, ho⟩ | hlimit |
    ⟨e, t, message, c₁, s₁, he, hk, hx, -, hfail⟩
  · rw [hresult] at ho
    cases ho
  · rw [hresult] at hlimit
    cases hlimit
  · exact ⟨e, t, message, c₁, s₁, he, hk, hx, hfail⟩

/-- A run succeeds just if there is a walk from the start within the limit, and then tells what was
visited, what was called and where it ended. -/
theorem run_ok_iff_walk (g : Engine) (x : Executor σ) (s : σ) (c : Context) {e : Element}
    (hstart : g.definition.starts = [e]) :
    (∀ names, (∃ o, (g.run x s c).result = .ok o ∧ o.visited = names) ↔
      1 ≤ names.length ∧ names.length ≤ g.settings.maxSteps ∧
        ∃ vs s', g.Walk x e.name c s vs s' ∧ vs.map (·.element.name) = names) ∧
    (∀ vs s', g.Walk x e.name c s vs s' → vs.length ≤ g.settings.maxSteps →
      ∃ o v, (g.run x s c).result = .ok o ∧ o.visited = vs.map (·.element.name) ∧
        vs.getLast? = some v ∧ o.context = v.after ∧ o.haltedAt = some v.element.name ∧
        o.patchedFields = vs.flatMap (·.patchedFields) ∧
        (g.run x s c).calls = vs.filterMap Visit.call? ∧ (g.run x s c).executor = s') := by
  refine ⟨fun names => ⟨?_, ?_⟩, fun vs s' hwalk hlen => ?_⟩
  · rintro ⟨o, ho, rfl⟩
    rcases g.path_cases x g.settings.maxSteps (mem_names_of_starts hstart) c s with
      ⟨vs, m, c₁, s₁, hpath, hlen⟩ | ⟨vs, s', hwalk, hlen⟩ |
      ⟨vs, m, c₁, s₁, f, message, s', hpath, hlen, hf⟩
    · rw [run_of_path hstart hpath hlen] at ho
      cases ho
    · rw [run_of_walk hstart hwalk hlen] at ho
      cases ho
      obtain ⟨ws, m, c₁, s₁, v, rfl, -⟩ := id hwalk
      simp only [Outcome.ofVisits, List.length_map]
      exact ⟨by simp, hlen, _, s', hwalk, rfl⟩
    · rw [run_of_fails hstart hpath hf hlen] at ho
      cases ho
  · rintro ⟨-, hlen, vs, s', hwalk, rfl⟩
    rw [List.length_map] at hlen
    exact ⟨_, by rw [run_of_walk hstart hwalk hlen], rfl⟩
  · have hrun := run_of_walk hstart hwalk hlen
    obtain ⟨ws, m, c₁, s₁, v, rfl, -⟩ := hwalk
    refine ⟨Outcome.ofVisits c (ws ++ [v]), v, by rw [hrun], rfl, by simp, ?_, ?_, rfl, by rw [hrun],
      by rw [hrun]⟩
    · simp [Outcome.ofVisits]
    · simp [Outcome.ofVisits, Outcome.haltedAt]

theorem run_ok_iff_walk_of_renewal :
    ∃ vs s' o v, renewal.Walk (answering "") "ask" .empty 0 vs s' ∧
      (renewal.run (answering "") 0 .empty).result = .ok o ∧
      o.visited = ["ask", "check", "renew"] ∧ vs.getLast? = some v ∧ o.context = v.after ∧
      (renewal.run (answering "") 0 .empty).calls = vs.filterMap Visit.call? := by
  have hstart : renewal.definition.starts = [_] := rfl
  obtain ⟨hiff, hwalks⟩ := run_ok_iff_walk renewal (answering "") 0 .empty hstart
  obtain ⟨-, hlen, vs, s', hwalk, hnames⟩ := (hiff ["ask", "check", "renew"]).1 ⟨_, rfl, rfl⟩
  have hlen : vs.length ≤ renewal.settings.maxSteps := by rwa [← hnames, List.length_map] at hlen
  obtain ⟨o, v, ho, hv, hlast, hc, -, -, hcalls, -⟩ := hwalks vs s' hwalk hlen
  exact ⟨vs, s', o, v, hwalk, ho, hv.trans hnames, hlast, hc, hcalls⟩

end Workflow.Engine
