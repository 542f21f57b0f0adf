import Workflow.Definition.Index
import Workflow.Proofs.Keyed

/-! An index exists just for the well-formed processes, and finds every element under its name. -/

namespace Workflow

/-- Every name is the name of one element, every link leads to an element, and every gateway has a
rule that can be evaluated. -/
structure Definition.WellFormed (p : Definition) : Prop where
  names : p.names.Nodup
  rules : ∀ e ∈ p.elements, ∀ w, e.kind = .gateway w → w.rule.wellFormed = true
  links : ∀ e ∈ p.elements, ∀ n ∈ e.successors, n ∈ p.names

theorem Definition.mem_names_iff {p : Definition} {n : String} :
    n ∈ p.names ↔ ∃ e ∈ p.elements, e.name = n := List.mem_map

theorem firstRepeated_eq_none_iff {seen l : List String} :
    firstRepeated seen l = none ↔ l.Nodup ∧ ∀ n ∈ l, n ∉ seen := by
  induction l generalizing seen with
  | nil => simp [firstRepeated]
  | cons n r ih =>
    simp only [firstRepeated]
    split
    · rename_i hn
      simp [hn]
    · rename_i hn
      rw [ih]
      simp only [List.nodup_cons, List.mem_cons, not_or]
      constructor
      · rintro ⟨hr, hs⟩
        refine ⟨⟨fun hm => (hs n hm).1 rfl, hr⟩, ?_⟩
        rintro m (rfl | hm)
        · exact hn
        · exact (hs m hm).2
      · rintro ⟨⟨hm, hr⟩, hs⟩
        refine ⟨hr, fun m hmr => ⟨?_, hs m (Or.inr hmr)⟩⟩
        rintro rfl
        exact hm hmr

namespace Index

theorem find?_positions {names : List String} (h : names.Nodup) {n : String} {i : Nat} :
    (Keyed.ofList names.zipIdx).find? n = some i ↔ names[i]? = some n := by
  rw [Keyed.find?_ofList_eq_some_iff (by rwa [List.zipIdx_map_fst]),
    List.mk_mem_zipIdx_iff_getElem?]

theorem isSome_find?_positions {names : List String} (h : names.Nodup) {n : String} :
    ((Keyed.ofList names.zipIdx).find? n).isSome = true ↔ n ∈ names := by
  rw [Option.isSome_iff_exists, List.mem_iff_getElem?]
  exact exists_congr fun i => find?_positions h

theorem checkRule_eq_ok_iff {e : Element} :
    checkRule e = .ok () ↔ ∀ w, e.kind = .gateway w → w.rule.wellFormed = true := by
  unfold checkRule Element.gateway?
  cases e.kind with
  | task t => simp
  | gateway w => simp [Rule.validate_eq_ok_iff]

theorem checkLinks_eq_ok_iff {positions : Keyed Nat} {e : Element} :
    checkLinks positions e = .ok () ↔ ∀ n ∈ e.successors, (positions.find? n).isSome = true := by
  unfold checkLinks missing?
  split
  · rename_i n hn
    have hs := List.find?_some hn
    have hm := List.mem_of_find?_eq_some hn
    simp only [reduceCtorEq, false_iff]
    intro h
    rw [← Option.not_isSome, h n hm] at hs
    cases hs
  · rename_i hn
    simpa [Option.isSome_iff_ne_none] using hn

theorem checkElements_eq_ok_iff {positions : Keyed Nat} {l : List Element} :
    checkElements positions l = .ok () ↔
      ∀ e ∈ l, checkRule e = .ok () ∧ checkLinks positions e = .ok () := by
  induction l with
  | nil => simp [checkElements]
  | cons e r ih =>
    simp only [checkElements, List.forall_mem_cons, ← ih]
    cases hr : checkRule e with
    | error x => simp [Bind.bind, Except.bind]
    | ok u =>
      cases hl : checkLinks positions e with
      | error x => simp [Bind.bind, Except.bind]
      | ok u => simp [Bind.bind, Except.bind]

theorem build_eq_ok_iff {p : Definition} {i : Index} :
    build p = .ok i ↔ p.WellFormed ∧ i = ⟨Keyed.ofList p.names.zipIdx⟩ := by
  unfold build
  split
  · rename_i n hn
    simp only [reduceCtorEq, false_iff]
    rintro ⟨hp, -⟩
    have := firstRepeated_eq_none_iff.2 ⟨hp.names, fun n _ => List.not_mem_nil⟩
    simp [hn] at this
  · rename_i hn
    obtain ⟨hnames, -⟩ := firstRepeated_eq_none_iff.1 hn
    have hcheck : checkElements (Keyed.ofList p.names.zipIdx) p.elements = .ok () ↔
        p.WellFormed := by
      simp only [checkElements_eq_ok_iff, checkRule_eq_ok_iff, checkLinks_eq_ok_iff,
        isSome_find?_positions hnames]
      exact ⟨fun h => ⟨hnames, fun e he => (h e he).1, fun e he => (h e he).2⟩,
        fun h e he => ⟨h.rules e he, h.links e he⟩⟩
    rw [← hcheck]
    cases hc : checkElements (Keyed.ofList p.names.zipIdx) p.elements with
    | error x => simp [hc, Except.map]
    | ok u => simp [hc, Except.map, eq_comm]

theorem element?_eq_some_iff {p : Definition} {i : Index} (h : build p = .ok i) {n : String}
    {e : Element} :
    (i.position n).bind (p.elements[·]?) = some e ↔ e ∈ p.elements ∧ e.name = n := by
  obtain ⟨hp, rfl⟩ := build_eq_ok_iff.1 h
  simp only [Option.bind_eq_some_iff, position, find?_positions hp.names]
  constructor
  · rintro ⟨k, hn, he⟩
    refine ⟨List.mem_of_getElem? he, ?_⟩
    simpa [Definition.names, he] using hn
  · rintro ⟨hm, rfl⟩
    obtain ⟨k, hk⟩ := List.mem_iff_getElem?.1 hm
    exact ⟨k, by simp [Definition.names, hk], hk⟩

theorem get_eq_ok_iff {p : Definition} {i : Index} (h : build p = .ok i) {n : String}
    {e : Element} : i.get p n = .ok e ↔ e ∈ p.elements ∧ e.name = n := by
  rw [← element?_eq_some_iff h, get]
  cases (i.position n).bind (p.elements[·]?) <;> simp

theorem get_eq_error_iff {p : Definition} {i : Index} (h : build p = .ok i) {n : String}
    {err : EvaluationError} : i.get p n = .error err ↔ n ∉ p.names ∧ err = .unknownElement n := by
  have hmem : n ∈ p.names ↔ ∃ e, i.get p n = .ok e := by
    simp only [Definition.mem_names_iff, get_eq_ok_iff h]
  rw [hmem, get]
  cases (i.position n).bind (p.elements[·]?) <;> simp [eq_comm]

end Index

end Workflow
