import Mathlib.Data.List.Perm.Subperm
import Workflow.Proofs.Limit

/-! Runs whose tasks change no data. Each element then has one successor for the whole run, so a run
that comes to an element a second time never ends, and one that visits no element twice has no more
visits than the process has elements. -/

namespace Workflow

variable {g : Engine} {n m : String} {c : Context} {s s' : Unit}

theorem Visit.Made.of_passthrough {v : Visit} (h : v.Made g Executor.passthrough n c s s') :
    v.after = c ∧ v.patchedFields = v.element.task?.toList.flatMap Task.modelPatchFields := by
  cases h with
  | task he hk hx =>
    simp only [Executor.passthrough, Prod.mk.injEq, Except.ok.injEq] at hx
    obtain ⟨rfl, -⟩ := hx
    exact ⟨rfl, by simp [Element.task?, hk]⟩
  | gateway he hk => exact ⟨rfl, by simp [Element.task?, hk]⟩

theorem Visit.not_fails_passthrough {e : Element} {message : String} :
    ¬ Visit.Fails g Executor.passthrough n c s e message s' := by
  rintro ⟨-, t, -, hx⟩
  cases hx

namespace Engine

/-- As long as the data are `c`, a run goes on from the element called `n` to the one called `m`. -/
def Advances (g : Engine) (c : Context) (n m : String) : Prop :=
  ∃ e, g.element n = .ok e ∧ halts e = false ∧ (g.resolveNext n).run c.lookup = .ok (some m)

/-- From the element called `n`, a run comes to an element from which it comes back there. -/
def Loops (g : Engine) (c : Context) (n : String) : Prop :=
  ∃ m, Relation.ReflTransGen (g.Advances c) n m ∧ Relation.TransGen (g.Advances c) m m

theorem Advances.unique {m' : String} (h : g.Advances c n m) (h' : g.Advances c n m') : m = m' := by
  obtain ⟨-, -, -, hm⟩ := h
  obtain ⟨-, -, -, hm'⟩ := h'
  rw [hm] at hm'
  cases hm'
  rfl

theorem Loops.head (h : g.Advances c n m) (hl : g.Loops c m) : g.Loops c n := by
  obtain ⟨k, hk, hback⟩ := hl
  exact ⟨k, hk.head h, hback⟩

/-- A run that loops never leaves its loop. -/
theorem Loops.advances (h : g.Loops c n) : ∃ m, g.Advances c n m ∧ g.Loops c m := by
  obtain ⟨k, hk, hback⟩ := h
  rcases hk.cases_head with rfl | ⟨m, hm, hrest⟩
  · -- the cycle starts here, and so it can start at the next element as well
    obtain ⟨m, hm, hrest⟩ := Relation.TransGen.head'_iff.1 hback
    exact ⟨m, hm, m, .refl, .tail' hrest hm⟩
  · exact ⟨m, hm, k, hrest, hback⟩

/-- What comes to an element that does not advance does not loop. -/
theorem not_loops_of_reaches {k : String} (h : Relation.ReflTransGen (g.Advances c) n k)
    (hk : ∀ m, ¬ g.Advances c k m) : ¬ g.Loops c n := by
  induction h using Relation.ReflTransGen.head_induction_on with
  | refl =>
    intro hl
    obtain ⟨m, hm, -⟩ := hl.advances
    exact hk m hm
  | head hstep _ ih =>
    intro hl
    obtain ⟨m, hm, hl⟩ := hl.advances
    rw [hstep.unique hm] at ih
    exact ih hl

theorem Advances.of_made {v : Visit} (hm : v.Made g Executor.passthrough n c s s')
    (hl : v.LeadsTo g m) : g.Advances c n m := by
  refine ⟨v.element, hm.element_eq, halts_eq_false_iff.2 hl.goesOn, ?_⟩
  rw [← hm.name_eq, ← hm.of_passthrough.1]
  exact hl.next

theorem Path.context_of_passthrough {vs c'} (h : g.Path Executor.passthrough n c s vs m c' s') :
    c' = c := by
  induction h with
  | nil => rfl
  | cons hm _ _ ih => rw [ih, hm.of_passthrough.1]

/-- The names that a path visits, and the one that it leads to. -/
def places (vs : List Visit) (m : String) : List String := vs.map (·.element.name) ++ [m]

theorem places_cons (v : Visit) (vs : List Visit) (m : String) :
    places (v :: vs) m = v.element.name :: places vs m := rfl

theorem length_places (vs : List Visit) (m : String) : (places vs m).length = vs.length + 1 := by
  simp [places]

theorem Path.places_subset {x : Executor Unit} {vs c'} (h : g.Path x n c s vs m c' s')
    (hn : n ∈ g.definition.names) : places vs m ⊆ g.definition.names := by
  induction h with
  | nil => exact List.cons_subset.2 ⟨hn, List.nil_subset _⟩
  | cons hm hl _ ih =>
    rw [← hm.name_eq] at hn
    exact List.cons_subset.2 ⟨hn, ih (hl.mem_names hn)⟩

theorem Path.reaches_places {vs c'} (h : g.Path Executor.passthrough n c s vs m c' s') :
    ∀ k ∈ places vs m, Relation.ReflTransGen (g.Advances c) n k := by
  induction h with
  | nil =>
    intro k hk
    rw [List.mem_singleton.1 hk]
  | cons hm hl _ ih =>
    intro k hk
    rw [hm.of_passthrough.1] at ih
    rw [places_cons, hm.name_eq] at hk
    rcases List.mem_cons.1 hk with rfl | hk
    · exact .refl
    · exact (ih k hk).head (.of_made hm hl)

/-- A path comes to no place twice unless the process loops. -/
theorem Path.nodup_places {vs c'} (h : g.Path Executor.passthrough n c s vs m c' s')
    (hn : ¬ g.Loops c n) : (places vs m).Nodup := by
  induction h with
  | nil => exact List.nodup_singleton _
  | @cons n c s v s' m vs n' c' s'' hm hl rest ih =>
    have hstep : g.Advances c n m := .of_made hm hl
    have hreaches := rest.reaches_places
    rw [hm.of_passthrough.1] at ih hreaches
    rw [places_cons, hm.name_eq, List.nodup_cons]
    refine ⟨?_, ih fun h => hn (h.head hstep)⟩
    -- to come back to `n` would close a cycle
    intro hback
    exact hn ⟨n, .refl, .head' hstep (hreaches n hback)⟩

/-- Without a loop, a path has room for one more element of the process. -/
theorem Path.length_lt {vs c'} (h : g.Path Executor.passthrough n c s vs m c' s')
    (hn : n ∈ g.definition.names) (hl : ¬ g.Loops c n) :
    vs.length < g.definition.elements.length := by
  have hle := ((h.nodup_places hl).subperm (h.places_subset hn)).length_le
  rw [length_places, Definition.names, List.length_map] at hle
  omega

theorem Walk.not_loops {vs} (h : g.Walk Executor.passthrough n c s vs s') : ¬ g.Loops c n := by
  obtain ⟨ws, k, c₁, s₁, v, rfl, hp, hm, hh⟩ := h
  obtain rfl := hp.context_of_passthrough
  have hk : k ∈ places ws k := List.mem_append_right _ (List.mem_singleton_self k)
  apply not_loops_of_reaches (hp.reaches_places k hk)
  intro m ⟨e, he, hgo, hnext⟩
  have hve : v.element = e := by
    rw [hm.element_eq] at he
    cases he
    rfl
  rcases hh with hend | hnone
  · rw [← hve, halts_eq_true_iff.2 hend] at hgo
    cases hgo
  · rw [hm.name_eq, hm.of_passthrough.1, hnext] at hnone
    cases hnone

/-- What a run that ends has visited, and the data at its end. -/
theorem Walk.of_passthrough {vs} (h : g.Walk Executor.passthrough n c s vs s')
    (hn : n ∈ g.definition.names) :
    (vs.map (·.element.name)).Nodup ∧ vs.length ≤ g.definition.elements.length ∧
      (vs.getLast?.map Visit.after).getD c = c := by
  have hl := h.not_loops
  obtain ⟨ws, k, c₁, s₁, v, rfl, hp, hm, -⟩ := h
  have hplaces : (ws ++ [v]).map (·.element.name) = places ws k := by
    simp [places, hm.name_eq]
  have hlen := hp.length_lt hn hl
  refine ⟨hplaces ▸ hp.nodup_places hl, ?_, ?_⟩
  · rw [List.length_append, List.length_singleton]
    omega
  · rw [List.getLast?_concat, Option.map_some, Option.getD_some, hm.of_passthrough.1,
      hp.context_of_passthrough]

theorem flatMap_patchedFields {vs : List Visit}
    (h : ∀ v ∈ vs, ∃ k c₁ s₁ s₂, v.Made g Executor.passthrough k c₁ s₁ s₂) :
    vs.flatMap (·.patchedFields) =
      ((vs.map Visit.element).filterMap Element.task?).flatMap Task.modelPatchFields := by
  induction vs with
  | nil => rfl
  | cons v vs ih =>
    obtain ⟨k, c₁, s₁, s₂, hm⟩ := h v List.mem_cons_self
    have ih := ih fun w hw => h w (List.mem_cons_of_mem v hw)
    rw [List.flatMap_cons, ih, hm.of_passthrough.2, List.map_cons]
    cases ht : v.element.task? <;> simp [ht]

section

variable {e : Element} (hstart : g.definition.starts = [e])
include hstart

/-- A process that loops is cut off by every limit. -/
theorem run_of_loops (hl : g.Loops c e.name) (m : Nat) :
    ((g.withLimit m).run Executor.passthrough () c).result = .error (.stepLimit m) := by
  rcases g.path_cases Executor.passthrough m (mem_names_of_starts hstart) c () with
    ⟨vs, n, c₁, s₁, hp, rfl⟩ | ⟨vs, s', hw, -⟩ | ⟨vs, n, c₁, s₁, f, message, s', -, -, hf⟩
  · rw [run_withLimit_of_path hstart hp]
  · exact absurd hl hw.not_loops
  · exact absurd hf Visit.not_fails_passthrough

/-- One that does not loop needs no more steps than it has elements. -/
theorem exists_run_of_not_loops (hl : ¬ g.Loops c e.name) {m : Nat}
    (hm : g.definition.elements.length ≤ m) :
    ∃ o, ((g.withLimit m).run Executor.passthrough () c).result = .ok o := by
  have hname := mem_names_of_starts hstart
  rcases g.path_cases Executor.passthrough m hname c () with
    ⟨vs, n, c₁, s₁, hp, rfl⟩ | ⟨vs, s', hw, hlen⟩ | ⟨vs, n, c₁, s₁, f, message, s', -, -, hf⟩
  · have hlt := hp.length_lt hname hl
    omega
  · exact ⟨_, by rw [run_withLimit_of_walk hstart hw hlen]⟩
  · exact absurd hf Visit.not_fails_passthrough

theorem run_eq_stepLimit_iff_loops {m : Nat} (hm : g.definition.elements.length ≤ m) :
    ((g.withLimit m).run Executor.passthrough () c).result = .error (.stepLimit m) ↔
      g.Loops c e.name := by
  refine ⟨fun h => ?_, fun hl => run_of_loops hstart hl m⟩
  by_contra hl
  obtain ⟨o, ho⟩ := exists_run_of_not_loops hstart hl hm
  rw [ho] at h
  cases h

/-- A run whose tasks change no data visits no element twice if it ends, so it needs at most as many
steps as there are elements. It is cut off by a limit that is no smaller just if it is cut off by every
larger one, which is if it comes to a cycle. -/
theorem passthrough_halts_or_loops (c : Context) :
    (∀ m o, ((g.withLimit m).run Executor.passthrough () c).result = .ok o →
      o.visited.Nodup ∧ o.visited.length ≤ g.definition.elements.length ∧ o.context = c ∧
      ∃ es : List Element, (∀ f ∈ es, f ∈ g.definition.elements) ∧
        es.map Element.name = o.visited ∧
        o.patchedFields = (es.filterMap Element.task?).flatMap Task.modelPatchFields) ∧
    (∀ m, g.definition.elements.length ≤ m →
      (((g.withLimit m).run Executor.passthrough () c).result = .error (.stepLimit m) ↔
        ∀ m', m < m' → ((g.withLimit m').run Executor.passthrough () c).result =
          .error (.stepLimit m')) ∧
      (((g.withLimit m).run Executor.passthrough () c).result = .error (.stepLimit m) ↔
        g.Loops c e.name) ∧
      (¬ g.Loops c e.name →
        ∃ o, ((g.withLimit m).run Executor.passthrough () c).result = .ok o)) := by
  refine ⟨fun m o ho => ?_, fun m hm => ⟨?_, run_eq_stepLimit_iff_loops hstart hm,
    fun hl => exists_run_of_not_loops hstart hl hm⟩⟩
  · obtain ⟨vs, s', hw, rfl⟩ := exists_walk_of_run_eq_ok hstart ho
    obtain ⟨hnodup, hlen, hcontext⟩ := hw.of_passthrough (mem_names_of_starts hstart)
    have hmade := hw.forall_made
    refine ⟨hnodup, by simpa [Outcome.ofVisits] using hlen, hcontext, vs.map Visit.element, ?_,
      by simp [Outcome.ofVisits], flatMap_patchedFields hmade⟩
    intro f hf
    obtain ⟨v, hv, rfl⟩ := List.mem_map.1 hf
    obtain ⟨k, c₁, s₁, s₂, hm⟩ := hmade v hv
    exact (g.element_eq_ok_iff.1 hm.element_eq).1
  · rw [run_eq_stepLimit_iff_loops hstart hm]
    constructor
    · intro hl m' _
      exact run_of_loops hstart hl m'
    · -- one larger limit is enough, as it too has room for every element
      intro h
      exact (run_eq_stepLimit_iff_loops hstart (by omega)).1 (h (m + 1) (by omega))

end

/-- Asks again until the answer is yes. -/
def polling : Engine where
  definition := ⟨"polling", "Polling", [
    ⟨"ask", "Ask", .task
      ⟨"manual", true, false, false, some "check", ⟨"null"⟩, ⟨"null"⟩, none, ["answer"]⟩⟩,
    ⟨"check", "Check", .gateway
      ⟨"or", .single ⟨"answer", .equal, .text "yes"⟩, some "note", some "ask"⟩⟩,
    ⟨"note", "Note", .task
      ⟨"rpc", false, true, false, none, ⟨"null"⟩, ⟨"null"⟩, none, ["until", "by"]⟩⟩]⟩
  settings := {}
  index := ⟨.ofList ["ask", "check", "note"].zipIdx⟩
  indexed := rfl

/-- With the answer at hand the run ends after each element once, and without it never. -/
theorem passthrough_halts_or_loops_of_polling :
    (∃ o, ((polling.withLimit 9).run Executor.passthrough ()
        (.ofList [("answer", .text "yes")])).result = .ok o ∧
      o.visited = ["ask", "check", "note"] ∧ o.visited.Nodup ∧
      o.context = .ofList [("answer", .text "yes")] ∧
      ∃ es : List Element, es.map Element.name = ["ask", "check", "note"] ∧
        o.patchedFields = (es.filterMap Element.task?).flatMap Task.modelPatchFields) ∧
    polling.definition.elements.length ≤ 3 ∧
    (∀ m, 3 < m →
      ((polling.withLimit m).run Executor.passthrough () .empty).result = .error (.stepLimit m)) ∧
    polling.Loops .empty "ask" := by
  have hstart : polling.definition.starts = [_] := rfl
  have hlen : polling.definition.elements.length ≤ 3 := by decide
  obtain ⟨o, ho, hvisited⟩ : ∃ o, ((polling.withLimit 9).run Executor.passthrough ()
      (.ofList [("answer", .text "yes")])).result = .ok o ∧
      o.visited = ["ask", "check", "note"] := ⟨_, rfl, rfl⟩
  have hcut : ((polling.withLimit 3).run Executor.passthrough () .empty).result =
      .error (.stepLimit 3) := rfl
  obtain ⟨hends, -⟩ := passthrough_halts_or_loops hstart (.ofList [("answer", .text "yes")])
  obtain ⟨hnodup, -, hcontext, es, -, hes, hpatched⟩ := hends 9 o ho
  obtain ⟨-, hlimits⟩ := passthrough_halts_or_loops hstart .empty
  obtain ⟨hlarger, hloops, -⟩ := hlimits 3 hlen
  exact ⟨⟨o, ho, hvisited, hnodup, hcontext, es, hes.trans hvisited, hpatched⟩, hlen,
    hlarger.1 hcut, hloops.1 hcut⟩

end Engine

end Workflow
