import Workflow.Proofs.ProjectionSetting
import Workflow.Proofs.Warnings

/-! Elements that a run does not visit. Whether they are there, what they are and where they stand in
the list is nothing to the run, nor to the resolution of any other element. -/

namespace Workflow

theorem Definition.WellFormed.of_perm {p q : Definition} (hp : p.WellFormed)
    (h : p.elements.Perm q.elements) : q.WellFormed := by
  have hnames : p.names.Perm q.names := h.map Element.name
  refine ⟨hnames.nodup_iff.1 hp.names, fun e he => hp.rules e (h.mem_iff.2 he), ?_⟩
  intro e he n hn
  exact hnames.mem_iff.1 (hp.links e (h.mem_iff.2 he) n hn)

namespace Engine

theorem exists_build_of_perm {p q : Definition} {s : Settings} (h : p.elements.Perm q.elements)
    (hp : ∃ g, build p s = .ok g) : ∃ g, build q s = .ok g := by
  rw [exists_build_iff, firstInconsistent?_eq_none_iff] at hp ⊢
  exact ⟨hp.1.of_perm h, fun hs e he => hp.2 hs e (h.mem_iff.2 he)⟩

variable {g h : Engine}

/-- An element that two processes have in common is found by its name in both. -/
theorem element_eq_of_mem {e : Element} (hg : e ∈ g.definition.elements)
    (hh : e ∈ h.definition.elements) : g.element e.name = h.element e.name := by
  rw [g.element_eq_ok_iff.2 ⟨hg, rfl⟩, h.element_eq_ok_iff.2 ⟨hh, rfl⟩]

theorem element_eq_of_perm (hperm : g.definition.elements.Perm h.definition.elements)
    (n : String) : g.element n = h.element n := by
  by_cases hn : n ∈ g.definition.names
  · obtain ⟨e, he, rfl⟩ := Definition.mem_names_iff.1 hn
    exact element_eq_of_mem he (hperm.mem_iff.1 he)
  · have hn' : n ∉ h.definition.names := by
      intro hmem
      exact hn ((hperm.map Element.name).mem_iff.2 hmem)
    rw [g.element_eq_error_iff.2 ⟨hn, rfl⟩, h.element_eq_error_iff.2 ⟨hn', rfl⟩]

/-- Two processes run alike if one has every element that the other's run visits, and they start at
the same element. What an element resolves to depends on nothing but the element, and the order of
the list makes no difference at all. -/
theorem run_depends_on_visited :
    (∀ g h : Engine, g.settings.textOrder = h.settings.textOrder →
      (∀ e, e ∈ g.definition.elements → e ∈ h.definition.elements → ∀ look,
        (h.resolve e.name).run look = (g.resolve e.name).run look ∧
        (h.resolveNext e.name).run look = (g.resolveNext e.name).run look) ∧
      ∀ (σ : Type) (x : Executor σ) s c e f, g.definition.starts = [e] →
        h.definition.starts = [f] → e.name = f.name → g.settings.maxSteps = h.settings.maxSteps →
        (∀ n ∈ (g.run x s c).visited,
          ∃ k ∈ g.definition.elements, k.name = n ∧ k ∈ h.definition.elements) →
        h.run x s c = g.run x s c) ∧
    ∀ p s g, build p s = .ok g → ∀ l : List Element, l.Perm p.elements →
      ∃ h, build { p with elements := l } s = .ok h ∧
        (∀ n look, (h.resolve n).run look = (g.resolve n).run look ∧
          (h.resolveNext n).run look = (g.resolveNext n).run look) ∧
        ∀ (σ : Type) (x : Executor σ) i c, h.run x i c = g.run x i c := by
  refine ⟨fun g h horder => ⟨fun e hg hh look => ?_,
    fun σ x s c e f hstart hstart' hname hlimit hvisited => ?_⟩, fun p s g hg l hl => ?_⟩
  · have he := element_eq_of_mem hh hg
    exact ⟨run_resolve_congr horder.symm he look,
      (agreesAt_of_element_eq horder.symm he).resolveNext look⟩
  · refine (run_eq_of_agreesAt hstart hstart' hname hlimit fun n hn => ?_).symm
    obtain ⟨k, hk, rfl, hk'⟩ := hvisited n hn
    exact agreesAt_of_element_eq horder (element_eq_of_mem hk hk')
  · -- all names lead to the same elements, whether a run comes to them or not
    obtain ⟨h, hh⟩ := exists_build_of_perm (q := { p with elements := l }) hl.symm ⟨g, hg⟩
    obtain ⟨rfl, rfl⟩ := build_eq_ok hg
    obtain ⟨hdefinition, hsettings⟩ := build_eq_ok hh
    have hperm : h.definition.elements.Perm g.definition.elements := by rw [hdefinition]; exact hl
    have horder : h.settings.textOrder = g.settings.textOrder := by rw [hsettings]
    have helement : ∀ n, h.element n = g.element n := element_eq_of_perm hperm
    have hagrees : h.Agrees g :=
      ⟨helement, fun n look => (agreesAt_of_element_eq horder (helement n)).resolveNext look⟩
    refine ⟨h, hh, fun n look =>
      ⟨run_resolve_congr horder (helement n) look, hagrees.resolveNext n look⟩, fun σ x i c => ?_⟩
    exact hagrees.run_eq_of_perm (hperm.filter Element.isStart) (by rw [hsettings]) i c

/-- The renewal with its elements in another order, where renewing is another task and has another
one after it. -/
def amendedRenewal : Engine where
  definition := ⟨"renewal", "Renewal", [
    ⟨"check", "Check", .gateway
      ⟨"or", .single ⟨"answer", .equal, .text "yes"⟩, some "renew", none⟩⟩,
    ⟨"tell", "Tell", .task
      ⟨"rpc", false, true, false, none, ⟨"null"⟩, ⟨"null"⟩, none, []⟩⟩,
    ⟨"renew", "Renew by hand", .task
      ⟨"manual", false, false, true, some "tell", ⟨"null"⟩, ⟨"null"⟩, none, []⟩⟩,
    ⟨"ask", "Ask", .task
      ⟨"manual", true, false, false, some "check", ⟨"null"⟩, ⟨"null"⟩, none, []⟩⟩]⟩
  settings := { maxSteps := 3, projectFields := true }
  index := ⟨.ofList ["check", "tell", "renew", "ask"].zipIdx⟩
  indexed := rfl

/-- Without an answer the run does not come to the task that was changed, and the gateway before it
still leads there. -/
theorem run_depends_on_visited_of_renewal :
    (renewal.run Executor.passthrough () .empty).visited = ["ask", "check"] ∧
    amendedRenewal.run Executor.passthrough () .empty =
      renewal.run Executor.passthrough () .empty ∧
    (amendedRenewal.resolveNext "check").run (fun _ => some (.text "yes")) = .ok (some "renew") ∧
    build renewal.definition { maxSteps := 3 } = .ok renewal ∧
    ∃ h, build { renewal.definition with elements := renewal.definition.elements.reverse }
        { maxSteps := 3 } = .ok h ∧
      h.run (answering "") 0 .empty = renewal.run (answering "") 0 .empty := by
  obtain ⟨hengines, horder⟩ := run_depends_on_visited
  obtain ⟨hresolve, hrun⟩ := hengines renewal amendedRenewal rfl
  have hvisited : (renewal.run Executor.passthrough () .empty).visited = ["ask", "check"] := rfl
  have hshared : ∀ n ∈ ["ask", "check"], ∃ k ∈ renewal.definition.elements, k.name = n ∧
      k ∈ amendedRenewal.definition.elements := by
    simp [renewal, amendedRenewal]
  obtain ⟨check, hcheck, hname, hcheck'⟩ := hshared "check" (by decide)
  have hnext := (hresolve check hcheck hcheck' fun _ => some (.text "yes")).2
  have hbuild : build renewal.definition { maxSteps := 3 } = .ok renewal := rfl
  obtain ⟨h, hh, -, hreverse⟩ := horder _ _ _ hbuild _ renewal.definition.elements.reverse_perm
  refine ⟨hvisited, hrun Unit Executor.passthrough () .empty _ _ rfl rfl rfl rfl ?_, ?_, hbuild, h,
    hh, hreverse Nat (answering "") 0 .empty⟩
  · rw [hvisited]
    exact hshared
  · rw [← hname, hnext, hname]
    rfl

end Engine

end Workflow
