import Workflow.Proofs.Run

/-! Engines that find the same elements and choose the same successors. A run takes notice only of
what it visits, so it is enough that two engines agree there for them to run alike. -/

namespace Workflow

variable {σ : Type} {g h : Engine} {x : Executor σ}

/-- The name leads to the same element, and that to the same successors. -/
structure Engine.AgreesAt (g h : Engine) (n : String) : Prop where
  element : g.element n = h.element n
  resolveNext : ∀ look, (g.resolveNext n).run look = (h.resolveNext n).run look

/-- The same names lead to the same elements, and these to the same successors. -/
structure Engine.Agrees (g h : Engine) : Prop where
  element : ∀ n, g.element n = h.element n
  resolveNext : ∀ n look, (g.resolveNext n).run look = (h.resolveNext n).run look

namespace Engine.AgreesAt

theorem made {n c s s'} {v : Visit} (a : g.AgreesAt h n) (hm : v.Made g x n c s s') :
    v.Made h x n c s s' := by
  cases hm with
  | task he hk hx => exact .task (a.element ▸ he) hk hx
  | gateway he hk => exact .gateway (a.element ▸ he) hk

theorem leadsTo {n} {v : Visit} (a : g.AgreesAt h v.element.name) (hl : v.LeadsTo g n) :
    v.LeadsTo h n :=
  ⟨hl.goesOn, by rw [← a.resolveNext]; exact hl.next⟩

theorem halts {v : Visit} (a : g.AgreesAt h v.element.name) (hh : v.Halts g) : v.Halts h := by
  rcases hh with hend | hnone
  · exact Or.inl hend
  · rw [a.resolveNext] at hnone
    exact Or.inr hnone

theorem fails {n c s e message s'} (a : g.AgreesAt h n)
    (hf : Visit.Fails g x n c s e message s') : Visit.Fails h x n c s e message s' :=
  ⟨a.element ▸ hf.1, hf.2⟩

end Engine.AgreesAt

namespace Engine

theorem Path.transfer {n c s vs m c' s'} (hp : g.Path x n c s vs m c' s')
    (a : ∀ v ∈ vs, g.AgreesAt h v.element.name) : h.Path x n c s vs m c' s' := by
  induction hp with
  | nil => exact .nil
  | @cons n c s v s' m vs n' c' s'' hm hl rest ih =>
    have hv := a v List.mem_cons_self
    have hrest := ih fun w hw => a w (List.mem_cons_of_mem v hw)
    exact .cons ((hm.name_eq ▸ hv).made hm) (hv.leadsTo hl) hrest

theorem Walk.transfer {n c s vs s'} (hw : g.Walk x n c s vs s')
    (a : ∀ v ∈ vs, g.AgreesAt h v.element.name) : h.Walk x n c s vs s' := by
  obtain ⟨ws, m, c₁, s₁, v, rfl, hp, hm, hh⟩ := hw
  have hv := a v (List.mem_append_right ws (List.mem_singleton_self v))
  have hpath := hp.transfer fun w hw => a w (List.mem_append_left [v] hw)
  exact ⟨ws, m, c₁, s₁, v, rfl, hpath, (hm.name_eq ▸ hv).made hm, hv.halts hh⟩

/-- Engines that agree where one of them goes run alike. -/
theorem run_eq_of_agreesAt {e f : Element} (hstart : g.definition.starts = [e])
    (hstart' : h.definition.starts = [f]) (hname : e.name = f.name)
    (hlimit : g.settings.maxSteps = h.settings.maxSteps) {s : σ} {c : Context}
    (a : ∀ n ∈ (g.run x s c).visited, g.AgreesAt h n) : g.run x s c = h.run x s c := by
  -- one engine's path, with what it visits, is the other's
  rcases g.path_cases x g.settings.maxSteps (mem_names_of_starts hstart) c s with
    ⟨vs, m, c₁, s₁, hp, hlen⟩ | ⟨vs, s', hw, hlen⟩ |
    ⟨vs, m, c₁, s₁, k, message, s', hp, hlen, hf⟩
  · have hrun := run_of_path hstart hp hlen
    rw [hrun] at a
    have hp' := hname ▸ hp.transfer fun v hv => a _ (List.mem_map_of_mem hv)
    rw [hrun, run_of_path hstart' hp' (hlen.trans hlimit), hlimit]
  · have hrun := run_of_walk hstart hw hlen
    rw [hrun] at a
    have hw' := hname ▸ hw.transfer fun v hv => a _ (List.mem_map_of_mem hv)
    rw [hrun, run_of_walk hstart' hw' (hlimit ▸ hlen)]
  · have hrun := run_of_fails hstart hp hf hlen
    rw [hrun] at a
    have hp' := hname ▸ hp.transfer fun v hv =>
      a _ (List.mem_append_left _ (List.mem_map_of_mem hv))
    have hk : m = k.name := (g.element_eq_ok_iff.1 hf.1).2.symm
    have hf' := (a m (hk ▸ List.mem_append_right _ (List.mem_singleton_self _))).fails hf
    rw [hrun, run_of_fails hstart' hp' hf' (hlimit ▸ hlen)]

namespace Agrees

theorem agreesAt (a : g.Agrees h) (n : String) : g.AgreesAt h n := ⟨a.element n, a.resolveNext n⟩

theorem fails (a : g.Agrees h) {n c s e message s'}
    (hf : Visit.Fails g x n c s e message s') : Visit.Fails h x n c s e message s' :=
  (a.agreesAt n).fails hf

theorem path (a : g.Agrees h) {n c s vs m c' s'} (hp : g.Path x n c s vs m c' s') :
    h.Path x n c s vs m c' s' :=
  hp.transfer fun v _ => a.agreesAt v.element.name

theorem walk (a : g.Agrees h) {n c s vs s'} (hw : g.Walk x n c s vs s') :
    h.Walk x n c s vs s' :=
  hw.transfer fun v _ => a.agreesAt v.element.name

theorem run_eq_of_perm (a : g.Agrees h)
    (hstarts : g.definition.starts.Perm h.definition.starts)
    (hlimit : g.settings.maxSteps = h.settings.maxSteps) (s : σ) (c : Context) :
    g.run x s c = h.run x s c := by
  by_cases hone : g.definition.starts.length = 1
  · obtain ⟨e, hs⟩ := List.length_eq_one_iff.1 hone
    have hs' : h.definition.starts = [e] := List.perm_singleton.1 (hs ▸ hstarts).symm
    exact run_eq_of_agreesAt hs hs' rfl hlimit fun n _ => a.agreesAt n
  · have hlen := hstarts.length_eq
    rw [g.run_of_length_starts_ne_one x s c hone,
      h.run_of_length_starts_ne_one x s c (hlen ▸ hone), hlen]

theorem run_eq (a : g.Agrees h) (hstarts : g.definition.starts = h.definition.starts)
    (hlimit : g.settings.maxSteps = h.settings.maxSteps) (s : σ) (c : Context) :
    g.run x s c = h.run x s c :=
  a.run_eq_of_perm (hstarts ▸ List.Perm.refl _) hlimit s c

end Agrees

end Engine

end Workflow
