import Mathlib
import Workflow.Proofs.ContextWriting
import Workflow.Proofs.Equality
import Workflow.Proofs.ValueEquality

/-! Contexts as finite maps. Whatever has happened to a context, each field has the value that was
written last, and two contexts are equal if what they have under each field is. -/

namespace Workflow

namespace Entries

variable {α : Type}

theorem find?_eq_map_find? (q : String) (l : List (String × α)) :
    find? q l = (l.find? (·.1 = q)).map Prod.snd := by
  induction l with
  | nil => rfl
  | cons e r ih =>
    simp only [find?, List.find?_cons]
    split
    · rename_i hq
      simp [hq]
    · rename_i hq
      simp [hq, ih]

/-- Entries of one name whose values are related. -/
def Matched (rel : α → α → Prop) (e e' : String × α) : Prop := e.1 = e'.1 ∧ rel e.2 e'.2

variable {rel : α → α → Prop} {l m : List (String × α)}

theorem rel_find?_of_forall₂ (h : List.Forall₂ (Matched rel) l m) (q : String) :
    Option.Rel rel (find? q l) (find? q m) := by
  induction h with
  | nil => exact .none
  | @cons e e' _ _ he _ ih =>
    obtain ⟨hname, hrel⟩ := he
    simp only [find?, ← hname]
    split
    · exact .some hrel
    · exact ih

theorem Ascending.find?_tail {e : String × α} (h : Ascending (e :: l)) : find? e.1 l = none :=
  find?_eq_none_of_forall_lt (List.pairwise_cons.1 h).1

/-- The first name of ascending entries is the smallest. -/
theorem Ascending.head_le {e : String × α} (h : Ascending (e :: l)) {q : String}
    (hq : find? q (e :: l) ≠ none) : e.1 ≤ q := by
  apply String.not_lt.1
  intro hlt
  apply hq
  apply find?_eq_none_of_forall_lt
  intro e' he'
  rcases List.mem_cons.1 he' with rfl | he'
  · exact hlt
  · exact String.lt_trans hlt ((List.pairwise_cons.1 h).1 e' he')

/-- Ascending entries that give related values under every name match one by one. -/
theorem forall₂_of_rel_find? (hl : Ascending l) (hm : Ascending m)
    (h : ∀ q, Option.Rel rel (find? q l) (find? q m)) : List.Forall₂ (Matched rel) l m := by
  induction l generalizing m with
  | nil =>
    cases m with
    | nil => exact .nil
    | cons e' s =>
      have hfirst := h e'.1
      rw [find?, find?, if_pos rfl] at hfirst
      cases hfirst
  | cons e r ih =>
    cases m with
    | nil =>
      have hfirst := h e.1
      rw [find?, find?, if_pos rfl] at hfirst
      cases hfirst
    | cons e' s =>
      have hfirst := h e.1
      have hfirst' := h e'.1
      have hname : e.1 = e'.1 := by
        apply String.le_antisymm
        · apply hl.head_le
          intro hnone
          rw [hnone, find?, if_pos rfl] at hfirst'
          cases hfirst'
        · apply hm.head_le
          intro hnone
          rw [hnone, find?, if_pos rfl] at hfirst
          cases hfirst
      rw [find?, find?, if_pos rfl, if_pos hname.symm] at hfirst
      rcases hfirst with hrel | _
      refine .cons ⟨hname, hrel⟩ (ih hl.of_cons hm.of_cons fun q => ?_)
      by_cases hq : e.1 = q
      · -- the name of the first entries is in neither tail
        have hr := hl.find?_tail
        have hs := hm.find?_tail
        rw [hq] at hr
        rw [← hname, hq] at hs
        rw [hr, hs]
        exact .none
      · have htail := h q
        rwa [find?, find?, if_neg hq, if_neg (hname ▸ hq)] at htail

end Entries

namespace Keyed

variable {α : Type}

/-- The names under which a map has a value are finitely many, and `size` counts them. -/
theorem encard_eq_size (m : Keyed α) : {k | m.find? k ≠ none}.encard = m.size := by
  have hfinite : {k | m.find? k ≠ none}.Finite := by
    refine (m.entries.map Prod.fst).finite_toSet.subset fun k hk => ?_
    exact Entries.find?_isSome_iff.1 (Option.isSome_iff_ne_none.2 hk)
  rw [← hfinite.cast_ncard_eq, ← m.size_eq_ncard]

theorem isEmpty_eq (m : Keyed α) : m.isEmpty = decide (m.size = 0) := by
  rw [isEmpty, size]
  cases m.entries <;> rfl

theorem union_assoc (a b c : Keyed α) : (a.union b).union c = a.union (b.union c) := by
  apply ext_find?
  intro q
  rw [find?_union, find?_union, find?_union, find?_union, Option.or_assoc]

theorem union_empty (a : Keyed α) : a.union empty = a := rfl

theorem empty_union (a : Keyed α) : empty.union a = a := by
  apply ext_find?
  intro q
  rw [find?_union, find?_empty, Option.or_none]

theorem union_union_self (a b : Keyed α) : (a.union b).union b = a.union b := by
  apply ext_find?
  intro q
  rw [find?_union, find?_union, ← Option.or_assoc, Option.or_self]

end Keyed

namespace Context

/-- What the change says of a field, if it writes or removes it. -/
def Change.sets? (f : String) : Change → Option (Option Value)
  | insert g v => if g = f then some (some v) else none
  | remove g => if g = f then some none else none
  | extend d => (d.lookup f).map some

/-- A field that the change says nothing of keeps its value. -/
theorem Change.lookup_apply_eq_getD (c : Context) (a : Change) (f : String) :
    (a.apply c).lookup f = (a.sets? f).getD (c.lookup f) := by
  rw [lookup_apply]
  cases a with
  | insert g v =>
    simp only [effect, sets?]
    split <;> rfl
  | remove g =>
    simp only [effect, sets?]
    split <;> rfl
  | extend d =>
    simp only [effect, sets?]
    cases d.lookup f <;> rfl

/-- A history is settled by the last change that says something of the field. -/
theorem lookup_after_eq_getD (c : Context) (h : List Change) (f : String) :
    (c.after h).lookup f = (h.reverse.findSome? (Change.sets? f)).getD (c.lookup f) := by
  induction h generalizing c with
  | nil => rfl
  | cons a r ih =>
    have hstep := a.lookup_apply_eq_getD c f
    have hrun := ih (a.apply c)
    rw [hstep] at hrun
    rw [List.reverse_cons, List.findSome?_append, List.findSome?_singleton]
    show ((a.apply c).after r).lookup f = _
    rw [hrun]
    cases r.reverse.findSome? (Change.sets? f) <;> rfl

theorem lookup_ofList_eq (l : List (String × Value)) (f : String) :
    lookup (.ofList l) f = (l.reverse.find? (·.1 = f)).map Prod.snd := by
  rw [lookup, Keyed.find?_ofList, Entries.find?_eq_map_find?]

theorem equalEntries_iff_forall₂ {l m : List (String × Value)} :
    equal.equalEntries l m = true ↔ List.Forall₂ (Entries.Matched Value.Equals) l m := by
  induction l generalizing m with
  | nil => cases m <;> simp [equal.equalEntries]
  | cons e r ih =>
    cases m with
    | nil => simp [equal.equalEntries]
    | cons e' s =>
      simp [equal.equalEntries, Entries.Matched, Value.equal_iff_equals, ih, and_assoc]

/-- Contexts are equal if they have values under the same fields and these are equal. -/
theorem equal_iff_rel {c d : Context} :
    c.equal d = true ↔ ∀ f, Option.Rel Value.Equals (c.lookup f) (d.lookup f) := by
  rw [equal, equalEntries_iff_forall₂]
  constructor
  · intro h f
    exact Entries.rel_find?_of_forall₂ h f
  · intro h
    exact Entries.forall₂_of_rel_find? c.ascending d.ascending h

theorem equal_self_iff {c : Context} :
    c.equal c = true ↔ ∀ f v, c.lookup f = some v → ¬ v.IsNaN := by
  rw [equal_iff_rel]
  constructor
  · intro h f v hv
    have hf := h f
    rw [hv] at hf
    rcases hf with hself | _
    rwa [← Value.equal_iff_equals, Value.equal_self_iff] at hself
  · intro h f
    cases hf : c.lookup f with
    | none => exact .none
    | some v =>
      apply Option.Rel.some
      rw [← Value.equal_iff_equals, Value.equal_self_iff]
      exact h f v hf

/-- After any history a field has what the last change that says something of it says, else what the
last of the entries for it says. A change of one field gives back the value that the field had, and
other fields keep theirs. The size counts the fields with a value. Merging is associative, the empty
context is neutral, and merging the same context again changes nothing. Contexts are equal if they have
equal values under the same fields, so one that holds what is no number is not equal to itself. -/
theorem after_is_finite_map :
    (∀ (l : List (String × Value)) (h : List Change) (f : String),
      (after (.ofList l) h).lookup f = (h.reverse.findSome? (Change.sets? f)).getD
        ((l.reverse.find? (·.1 = f)).map Prod.snd)) ∧
    (∀ (c : Context) (a : Change) (f : String), a.sets? f = none →
      (a.apply c).lookup f = c.lookup f) ∧
    (∀ (c : Context) (f : String) (v : Value),
      c.exchange f v = (c.lookup f, (Change.insert f v).apply c) ∧
      c.extract f = (c.lookup f, (Change.remove f).apply c)) ∧
    (∀ c : Context, {f | c.lookup f ≠ none}.encard = c.size ∧ c.isEmpty = decide (c.size = 0)) ∧
    (∀ c d e : Context, (c.union d).union e = c.union (d.union e)) ∧
    (∀ c : Context, c.union .empty = c ∧ Keyed.empty.union c = c) ∧
    (∀ c d : Context, (c.union d).union d = c.union d) ∧
    (∀ c d : Context,
      c.equal d = true ↔ ∀ f, Option.Rel Value.Equals (c.lookup f) (d.lookup f)) ∧
    ∀ c : Context, c.equal c = true ↔ ∀ f v, c.lookup f = some v → ¬ v.IsNaN := by
  refine ⟨fun l h f => ?_, fun c a f hf => ?_, fun c f v => ⟨c.exchange_eq f v, c.extract_eq f⟩,
    fun c => ⟨c.encard_eq_size, c.isEmpty_eq⟩, Keyed.union_assoc,
    fun c => ⟨c.union_empty, c.empty_union⟩, Keyed.union_union_self, fun _ _ => equal_iff_rel,
    fun _ => equal_self_iff⟩
  · rw [lookup_after_eq_getD, lookup_ofList_eq]
  · rw [Change.lookup_apply_eq_getD, hf, Option.getD_none]

/-- Two entries for one field. -/
def firstAnswers : List (String × Value) :=
  [("age", .text "unknown"), ("city", .text "Bonn"), ("age", zeroBelow)]

def laterAnswers : List Change :=
  [.insert "vip" (.boolean true), .remove "city", .extend (.ofList [("vip", noNumber)])]

theorem after_is_finite_map_of_answers :
    (after (.ofList firstAnswers) laterAnswers).lookup "age" = some zeroBelow ∧
    (after (.ofList firstAnswers) laterAnswers).lookup "city" = none ∧
    (after (.ofList firstAnswers) laterAnswers).lookup "vip" = some noNumber ∧
    ((after (.ofList firstAnswers) laterAnswers).extract "vip").1 = some noNumber ∧
    (Change.apply (.ofList firstAnswers) (.remove "city")).lookup "age" = some zeroBelow ∧
    ¬ (after (.ofList firstAnswers) laterAnswers).equal
      (after (.ofList firstAnswers) laterAnswers) = true := by
  obtain ⟨hlookup, hkeeps, hgives, -, -, -, -, -, hself⟩ := after_is_finite_map
  have hage : lookup (.ofList firstAnswers) "age" = some zeroBelow := hlookup firstAnswers [] "age"
  have hvip := hlookup firstAnswers laterAnswers "vip"
  refine ⟨hlookup _ _ "age", hlookup _ _ "city", hvip, ?_, ?_, ?_⟩
  · rw [(hgives _ "vip" noNumber).2, hvip]
    rfl
  · rw [hkeeps _ _ _ (by decide), hage]
  · rw [hself]
    intro h
    exact h "vip" noNumber hvip ⟨_, rfl, by decide⟩

end Context

end Workflow
