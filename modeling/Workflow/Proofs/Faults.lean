import Workflow.Proofs.Checking
import Workflow.Proofs.Index

/-! Why a process has no index. A name that is given twice is reported before anything else, and
after that the first element with a fault. -/

namespace Workflow

/-- A name that is found has occurred before its place, and those in front of it are all different.
-/
theorem exists_split_of_firstRepeated {seen l : List String} {n : String}
    (h : firstRepeated seen l = some n) : ∃ front rest, l = front ++ n :: rest ∧
      (n ∈ seen ∨ n ∈ front) ∧ front.Nodup ∧ ∀ m ∈ front, m ∉ seen := by
  induction l generalizing seen with
  | nil => cases h
  | cons k r ih =>
    simp only [firstRepeated] at h
    split at h
    · rename_i hk
      cases h
      exact ⟨[], r, rfl, Or.inl hk, List.nodup_nil, by simp⟩
    · rename_i hk
      obtain ⟨front, rest, rfl, hn, hnodup, hseen⟩ := ih h
      have hfresh : k ∉ front := fun hm => hseen k hm List.mem_cons_self
      refine ⟨k :: front, rest, rfl, ?_, List.nodup_cons.2 ⟨hfresh, hnodup⟩,
        List.forall_mem_cons.2 ⟨hk, fun m hm hs => hseen m hm (List.mem_cons_of_mem _ hs)⟩⟩
      rcases hn with hn | hn
      · rcases List.mem_cons.1 hn with rfl | hn
        · exact Or.inr List.mem_cons_self
        · exact Or.inl hn
      · exact Or.inr (List.mem_cons_of_mem _ hn)

theorem Element.mem_successors_iff {e : Element} {n : String} :
    n ∈ e.successors ↔ (∃ t, e.kind = .task t ∧ t.next = some n) ∨
      ∃ w, e.kind = .gateway w ∧ (w.nextIfTrue = some n ∨ w.nextIfFalse = some n) := by
  unfold Element.successors
  cases e.kind <;> simp

/-- What is wrong with an element where elements have these names: its rule, or else the first of
its links that leads to none of them. -/
inductive Element.Fault (names : List String) (e : Element) : DefinitionError → Prop
  | rule {w : Gateway} (kind : e.kind = .gateway w) (refused : w.rule.wellFormed = false) :
    Fault names e (.emptyGroup e.name)
  | next {t : Task} {n : String} (kind : e.kind = .task t) (link : t.next = some n)
    (dangling : n ∉ names) : Fault names e (.unknownSuccessor n e.name)
  | ifTrue {w : Gateway} {n : String} (kind : e.kind = .gateway w)
    (rule : w.rule.wellFormed = true) (link : w.nextIfTrue = some n) (dangling : n ∉ names) :
    Fault names e (.unknownSuccessor n e.name)
  | ifFalse {w : Gateway} {n : String} (kind : e.kind = .gateway w)
    (rule : w.rule.wellFormed = true) (other : ∀ m, w.nextIfTrue = some m → m ∈ names)
    (link : w.nextIfFalse = some n) (dangling : n ∉ names) :
    Fault names e (.unknownSuccessor n e.name)

namespace Index

/-- Both checks of one element. -/
def checkElement (positions : Keyed Nat) (e : Element) : Except DefinitionError Unit := do
  checkRule e
  checkLinks positions e

theorem checkElements_eq_error_iff {positions : Keyed Nat} {l : List Element}
    {err : DefinitionError} : checkElements positions l = .error err ↔
      ∃ front e rest, l = front ++ e :: rest ∧
        (∀ f ∈ front, ∃ u, checkElement positions f = .ok u) ∧
        checkElement positions e = .error err := by
  have hall : checkElements positions l =
      (checkAll (checkElement positions) l).map fun _ => () := by
    induction l with
    | nil => rfl
    | cons e r ih =>
      simp only [checkElements, checkAll, checkElement, ih]
      cases checkRule e <;> cases checkLinks positions e <;>
        cases checkAll (checkElement positions) r <;> rfl
  rw [← checkAll_eq_error_iff, hall]
  cases checkAll (checkElement positions) l <;> simp [Except.map]

theorem checkRule_eq_error_iff {e : Element} {err : DefinitionError} :
    checkRule e = .error err ↔
      ∃ w, e.kind = .gateway w ∧ w.rule.wellFormed = false ∧ err = .emptyGroup e.name := by
  unfold checkRule Element.gateway? Rule.validate
  cases e.kind with
  | task t => simp
  | gateway w =>
    simp only [ElementKind.gateway.injEq, exists_eq_left']
    split
    · rename_i hw
      simp [hw]
    · rename_i hw
      simp only [Except.error.injEq, Bool.not_eq_true] at hw ⊢
      rw [eq_comm, and_iff_right hw]

theorem checkLinks_eq_error_iff {positions : Keyed Nat} {e : Element} {err : DefinitionError} :
    checkLinks positions e = .error err ↔
      ∃ n, missing? positions e.successors = some n ∧ err = .unknownSuccessor n e.name := by
  unfold checkLinks
  cases missing? positions e.successors with
  | none => simp
  | some n => simp only [Except.error.injEq, Option.some.injEq, exists_eq_left', eq_comm]

section

variable {positions : Keyed Nat} {names : List String}
  (h : ∀ n, (positions.find? n).isSome = true ↔ n ∈ names)

include h

theorem missing?_toList_eq_some_iff {o : Option String} {n : String} :
    missing? positions o.toList = some n ↔ o = some n ∧ n ∉ names := by
  rw [← h, ← Option.isNone_iff_eq_none.trans Option.not_isSome_iff_eq_none.symm, missing?]
  cases o with
  | none => simp
  | some m =>
    simp only [Option.toList_some, List.find?_singleton, Option.ite_none_right_eq_some,
      Option.some.injEq]
    constructor
    · rintro ⟨hm, rfl⟩
      exact ⟨rfl, hm⟩
    · rintro ⟨rfl, hm⟩
      exact ⟨hm, rfl⟩

theorem missing?_toList_eq_none_iff {o : Option String} :
    missing? positions o.toList = none ↔ ∀ n, o = some n → n ∈ names := by
  simp only [Option.eq_none_iff_forall_ne_some, ne_eq, missing?_toList_eq_some_iff h, not_and,
    not_not]

theorem checkLinks_of_task {e : Element} {t : Task} (hk : e.kind = .task t)
    {err : DefinitionError} : checkLinks positions e = .error err ↔
      ∃ n, (t.next = some n ∧ n ∉ names) ∧ err = .unknownSuccessor n e.name := by
  simp only [checkLinks_eq_error_iff, Element.successors, hk, missing?_toList_eq_some_iff h]

theorem checkLinks_of_gateway {e : Element} {w : Gateway} (hk : e.kind = .gateway w)
    {err : DefinitionError} : checkLinks positions e = .error err ↔
      ∃ n, (w.nextIfTrue = some n ∧ n ∉ names ∨ (∀ m, w.nextIfTrue = some m → m ∈ names) ∧
        w.nextIfFalse = some n ∧ n ∉ names) ∧ err = .unknownSuccessor n e.name := by
  have happend (n : String) : missing? positions e.successors = some n ↔
      missing? positions w.nextIfTrue.toList = some n ∨
        missing? positions w.nextIfTrue.toList = none ∧
          missing? positions w.nextIfFalse.toList = some n := by
    rw [Element.successors, hk, missing?, List.find?_append, Option.or_eq_some_iff]
    rfl
  simp only [checkLinks_eq_error_iff, happend, missing?_toList_eq_some_iff h,
    missing?_toList_eq_none_iff h]

/-- The rule is checked before the links. -/
theorem checkElement_eq_error_iff {e : Element} {err : DefinitionError} :
    checkElement positions e = .error err ↔ e.Fault names err := by
  rw [checkElement, exceptBind_eq_error_iff, checkRule_eq_error_iff]
  constructor
  · rintro (⟨w, hk, hw, rfl⟩ | ⟨_, hrule, hlinks⟩)
    · exact .rule hk hw
    · cases hk : e.kind with
      | task t =>
        obtain ⟨n, ⟨hn, hd⟩, rfl⟩ := (checkLinks_of_task h hk).1 hlinks
        exact .next hk hn hd
      | gateway w =>
        have hw := checkRule_eq_ok_iff.1 hrule w hk
        obtain ⟨n, ⟨hn, hd⟩ | ⟨ht, hn, hd⟩, rfl⟩ := (checkLinks_of_gateway h hk).1 hlinks
        · exact .ifTrue hk hw hn hd
        · exact .ifFalse hk hw ht hn hd
  · intro hfault
    cases hfault with
    | rule hk hw => exact Or.inl ⟨_, hk, hw, rfl⟩
    | next hk hn hd =>
      refine Or.inr ⟨(), ?_, (checkLinks_of_task h hk).2 ⟨_, ⟨hn, hd⟩, rfl⟩⟩
      simp [checkRule_eq_ok_iff, hk]
    | ifTrue hk hw hn hd =>
      refine Or.inr ⟨(), ?_, (checkLinks_of_gateway h hk).2 ⟨_, Or.inl ⟨hn, hd⟩, rfl⟩⟩
      simp [checkRule_eq_ok_iff, hk, hw]
    | ifFalse hk hw ht hn hd =>
      refine Or.inr ⟨(), ?_, (checkLinks_of_gateway h hk).2 ⟨_, Or.inr ⟨ht, hn, hd⟩, rfl⟩⟩
      simp [checkRule_eq_ok_iff, hk, hw]

end

/-- Where no name is given twice, the first element with a fault is reported. -/
theorem build_eq_error_iff {p : Definition} (hp : p.names.Nodup) {err : DefinitionError} :
    build p = .error err ↔ ∃ front e rest, p.elements = front ++ e :: rest ∧
      (∀ f ∈ front, ∀ fault, ¬ f.Fault p.names fault) ∧ e.Fault p.names err := by
  have hfirst : firstRepeated [] p.names = none :=
    firstRepeated_eq_none_iff.2 ⟨hp, fun _ _ => List.not_mem_nil⟩
  have hcheck (e : Element) (err : DefinitionError) :
      checkElement (Keyed.ofList p.names.zipIdx) e = .error err ↔ e.Fault p.names err :=
    checkElement_eq_error_iff fun n => isSome_find?_positions hp
  have hsound (e : Element) :
      (∃ u, checkElement (Keyed.ofList p.names.zipIdx) e = .ok u) ↔
        ∀ fault, ¬ e.Fault p.names fault := by
    simp only [← hcheck]
    cases checkElement (Keyed.ofList p.names.zipIdx) e <;> simp
  have hbuild : build p = .error err ↔
      checkElements (Keyed.ofList p.names.zipIdx) p.elements = .error err := by
    rw [build, hfirst]
    cases hc : checkElements (Keyed.ofList p.names.zipIdx) p.elements <;> simp [hc, Except.map]
  rw [hbuild, checkElements_eq_error_iff]
  simp only [hcheck, hsound]

theorem position_eq_some_iff {p : Definition} {i : Index} (h : build p = .ok i) {n : String}
    {k : Nat} : i.position n = some k ↔ ∃ e, p.elements[k]? = some e ∧ e.name = n := by
  obtain ⟨hp, rfl⟩ := build_eq_ok_iff.1 h
  rw [position, find?_positions hp.names, Definition.names, List.getElem?_map,
    Option.map_eq_some_iff]

theorem size_of_build {p : Definition} {i : Index} (h : build p = .ok i) :
    i.size = p.elements.length := by
  obtain ⟨hp, rfl⟩ := build_eq_ok_iff.1 h
  have hperm := Keyed.perm_entries_ofList (l := p.names.zipIdx)
    (by rw [List.zipIdx_map_fst]; exact hp.names)
  rw [size, Keyed.size, hperm.length_eq, List.length_zipIdx, Definition.names, List.length_map]

/-- A process has an index just if no name is given twice, every rule passes its check and every
link leads to an element. A repeated name is reported before all else, at the first place where a
name is one that came before; otherwise the first element with a fault is reported. An index gives
every element its own place. -/
theorem build_reports_first_fault (p : Definition) :
    ((∃ i, build p = .ok i) ↔ p.names.Nodup ∧
      (∀ e ∈ p.elements, ∀ w, e.kind = .gateway w → w.rule.validate e.name = .ok ()) ∧
      ∀ e ∈ p.elements, ∀ n,
        (∃ t, e.kind = .task t ∧ t.next = some n) ∨
        (∃ w, e.kind = .gateway w ∧ (w.nextIfTrue = some n ∨ w.nextIfFalse = some n)) →
        n ∈ p.names) ∧
    (¬ p.names.Nodup → ∃ front n rest, p.names = front ++ n :: rest ∧ front.Nodup ∧ n ∈ front ∧
      build p = .error (.duplicateElement n)) ∧
    (p.names.Nodup → ∀ err, build p = .error err ↔
      ∃ front e rest, p.elements = front ++ e :: rest ∧
        (∀ f ∈ front, ∀ fault, ¬ f.Fault p.names fault) ∧ e.Fault p.names err) ∧
    ∀ i, build p = .ok i →
      (∀ n k, i.position n = some k ↔ ∃ e, p.elements[k]? = some e ∧ e.name = n) ∧
      (∀ n e, i.get p n = .ok e ↔ e ∈ p.elements ∧ e.name = n) ∧
      (∀ n err, i.get p n = .error err ↔ n ∉ p.names ∧ err = .unknownElement n) ∧
      i.size = p.elements.length := by
  refine ⟨?_, fun hp => ?_, fun hp err => build_eq_error_iff hp, fun i hi =>
    ⟨fun n k => position_eq_some_iff hi, fun n e => get_eq_ok_iff hi,
      fun n err => get_eq_error_iff hi, size_of_build hi⟩⟩
  · constructor
    · rintro ⟨i, hi⟩
      obtain ⟨hp, -⟩ := build_eq_ok_iff.1 hi
      exact ⟨hp.names, fun e he w hk => Rule.validate_eq_ok_iff.2 (hp.rules e he w hk),
        fun e he n hn => hp.links e he n (Element.mem_successors_iff.2 hn)⟩
    · rintro ⟨hnames, hrules, hlinks⟩
      have hp : p.WellFormed := ⟨hnames,
        fun e he w hk => Rule.validate_eq_ok_iff.1 (hrules e he w hk),
        fun e he n hn => hlinks e he n (Element.mem_successors_iff.1 hn)⟩
      exact ⟨_, build_eq_ok_iff.2 ⟨hp, rfl⟩⟩
  · cases hn : firstRepeated [] p.names with
    | none => exact absurd (firstRepeated_eq_none_iff.1 hn).1 hp
    | some n =>
      obtain ⟨front, rest, hsplit, hmem, hfront, -⟩ := exists_split_of_firstRepeated hn
      exact ⟨front, n, rest, hsplit, hfront, hmem.resolve_left List.not_mem_nil,
        by rw [build, hn]⟩

/-- A process of gateways that all decide by one rule and lead on to the same two elements. -/
def crossroads (names : List String) (r : Rule) (ifTrue ifFalse : String) : Definition where
  name := "crossroads"
  label := ""
  elements := names.map fun n => ⟨n, "", .gateway ⟨"or", r, some ifTrue, some ifFalse⟩⟩

/-- Of two dangling links the one for true is reported, of four names the first that came before,
and a rule without groups before any link. -/
theorem build_reports_first_fault_of_crossroads :
    ((crossroads ["a", "b"] default "lost" "gone").names.Nodup ∧
      build (crossroads ["a", "b"] default "lost" "gone") =
        .error (.unknownSuccessor "lost" "a")) ∧
    ((crossroads ["a", "b"] (.grouped .or []) "lost" "gone").names.Nodup ∧
      build (crossroads ["a", "b"] (.grouped .or []) "lost" "gone") = .error (.emptyGroup "a")) ∧
    (¬ (crossroads ["a", "b", "b", "a"] default "lost" "gone").names.Nodup ∧
      ∃ front n rest, ["a", "b", "b", "a"] = front ++ n :: rest ∧ front.Nodup ∧ n ∈ front ∧
        build (crossroads ["a", "b", "b", "a"] default "lost" "gone") =
          .error (.duplicateElement n)) ∧
    ∃ i, build (crossroads ["a", "b"] default "b" "a") = .ok i ∧ i.position "b" = some 1 ∧
      i.size = 2 := by
  have hlinks (r : Rule) :=
    (build_reports_first_fault (crossroads ["a", "b"] r "lost" "gone")).2.2.1
  have hnames (r : Rule) : (crossroads ["a", "b"] r "lost" "gone").names.Nodup :=
    show ["a", "b"].Nodup by decide
  have hdouble : ¬ (crossroads ["a", "b", "b", "a"] default "lost" "gone").names.Nodup := by decide
  obtain ⟨i, hi⟩ : ∃ i, build (crossroads ["a", "b"] default "b" "a") = .ok i := ⟨_, rfl⟩
  obtain ⟨hposition, -, -, hsize⟩ := (build_reports_first_fault _).2.2.2 i hi
  refine ⟨⟨hnames _, (hlinks _ (hnames _) _).2 ?_⟩, ⟨hnames _, (hlinks _ (hnames _) _).2 ?_⟩,
    ⟨hdouble, (build_reports_first_fault _).2.1 hdouble⟩, i, hi, (hposition _ _).2 ⟨_, rfl, rfl⟩,
    hsize⟩
  · exact ⟨[], _, _, rfl, nofun, .ifTrue rfl rfl rfl (by decide)⟩
  · exact ⟨[], _, _, rfl, nofun, .rule rfl rfl⟩

end Index

end Workflow
