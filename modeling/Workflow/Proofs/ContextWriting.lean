import Workflow.Proofs.ContextReading

/-! Contexts written to JSON. The object and its text say which value each field holds and nothing else,
and reading the object gives all of it back but the numbers that JSON lacks. -/

namespace Workflow

/-- Exactly the infinities and what is no number are not finite. -/
theorem Binary64.isFinite_eq_false_iff {x : Binary64} :
    x.isFinite = false ↔ x.isNaN = true ∨ x.isInfinite = true := by
  simp only [isFinite, isNaN, isInfinite, decide_eq_false_iff_not, decide_eq_true_eq]
  omega

namespace Value

/-- A number that JSON lacks. -/
def IsLost (v : Value) : Prop := ∃ x, v = number x ∧ (x.isNaN = true ∨ x.isInfinite = true)

/-- What is written is no array and no object. -/
theorem not_isNested_toJson (v : Value) : ¬ v.toJson.IsNested := by
  cases v with
  | number x =>
    rw [toJson, Json.ofBinary64]
    split <;> exact id
  | boolean | text => exact id

theorem isLost_number_iff {x : Binary64} : (number x).IsLost ↔ x.isFinite = false := by
  rw [Binary64.isFinite_eq_false_iff]
  simp [IsLost]

/-- A value is read back as it is, bit by bit, or it is lost. -/
theorem ofJson?_toJson_eq_some_iff {v w : Value} :
    ofJson? v.toJson = some w ↔ v = w ∧ ¬ w.IsLost := by
  cases v with
  | number x =>
    rw [toJson, Json.ofBinary64]
    cases hx : x.isFinite with
    | true =>
      refine ⟨fun h => ?_, fun h => congrArg some h.1⟩
      cases h
      exact ⟨rfl, by simp [isLost_number_iff, JsonNumber.toBinary64, hx]⟩
    | false =>
      refine ⟨nofun, ?_⟩
      rintro ⟨rfl, h⟩
      exact absurd (isLost_number_iff.2 hx) h
  | boolean | text =>
    refine ⟨fun h => ?_, fun h => congrArg some h.1⟩
    cases h
    exact ⟨rfl, by simp [IsLost]⟩

end Value

namespace Context

/-- What can happen to a context. -/
inductive Change where
  | insert (field : String) (v : Value)
  | remove (field : String)
  /-- Where both have a field, the other context wins. -/
  | extend (other : Context)

namespace Change

def apply (c : Context) : Change → Context
  | insert f v => Keyed.insert c f v
  | remove f => Keyed.erase c f
  | extend d => Keyed.union c d

/-- What the change makes of the values of fields. -/
def effect (l : FieldLookup) : Change → FieldLookup
  | insert f v => fun q => if f = q then some v else l q
  | remove f => fun q => if f = q then none else l q
  | extend d => fun q => (d.lookup q).or (l q)

theorem lookup_apply (c : Context) (a : Change) : (a.apply c).lookup = a.effect c.lookup := by
  funext q
  cases a with
  | insert f v => exact Keyed.find?_insert c f q v
  | remove f => exact Keyed.find?_erase c f q
  | extend d => exact Keyed.find?_union c d q

end Change

/-- The context after a history of changes, the first of them first. -/
def after (c : Context) (h : List Change) : Context := h.foldl Change.apply c

theorem lookup_after (c : Context) (h : List Change) :
    (c.after h).lookup = h.foldl Change.effect c.lookup := by
  induction h generalizing c with
  | nil => rfl
  | cons a r ih =>
    rw [List.foldl_cons, ← Change.lookup_apply]
    exact ih (a.apply c)

theorem eq_of_lookup_eq {c d : Context} (h : c.lookup = d.lookup) : c = d :=
  Keyed.ext_find? (congrFun h)

/-- The members of the object that a context is written as. -/
def members (c : Context) : List (String × Json) := c.entries.map fun e => (e.1, e.2.toJson)

theorem members_ascending (c : Context) : Entries.Ascending c.members :=
  List.pairwise_map.2 c.ascending

theorem find?_members (c : Context) (f : String) :
    Entries.find? f c.members = (c.lookup f).map Value.toJson :=
  Entries.find?_map f Value.toJson c.entries

theorem toJson_eq (c : Context) : c.toJson = .object c.members := rfl

/-- In whatever order the entries are taken, the object has its members in order of name. -/
theorem sort_of_perm (c : Context) {l : List (String × Value)} (h : l.Perm c.entries) :
    Entries.sort (l.map fun e => (e.1, e.2.toJson)) = c.members := by
  have hperm : c.members.Perm (l.map fun e => (e.1, e.2.toJson)) := h.symm.map _
  rw [← Entries.sort_congr (Entries.under_of_perm c.members_ascending.nodup_keys hperm)]
  exact Entries.sort_of_ascending c.members_ascending

theorem members_flat (c : Context) : ∀ m ∈ c.members, ¬ m.2.IsNested := by
  intro m hm
  obtain ⟨e, -, rfl⟩ := List.mem_map.1 hm
  exact e.2.not_isNested_toJson

/-- Everything but the numbers that JSON lacks is read back. -/
theorem exists_ofJson_toJson (c : Context) : ∃ d, ofJson c.toJson = .ok d ∧
    ∀ f v, d.lookup f = some v ↔ c.lookup f = some v ∧ ¬ v.IsLost := by
  rw [toJson_eq]
  refine ⟨_, ofJson_of_flat c.members_flat, fun f v => ?_⟩
  rw [lookup_ofList c.members_ascending, find?_members]
  cases c.lookup f with
  | none => simp
  | some w => simp [Value.ofJson?_toJson_eq_some_iff]

theorem ofJson_toJson_of_not_isLost {c : Context} (h : ∀ f v, c.lookup f = some v → ¬ v.IsLost) :
    ofJson c.toJson = .ok c := by
  obtain ⟨d, hd, hlookup⟩ := c.exists_ofJson_toJson
  have hsame : d = c := by
    apply eq_of_lookup_eq
    funext f
    refine Option.ext fun v => ?_
    rw [hlookup, and_iff_left_of_imp (h f v)]
  rw [hd, hsame]

/-- The object of a context has a member for each field, in order of name and whatever the order in
which the entries are taken. It is read back as the context without the numbers that JSON lacks, which
is read back from its own object as it is. Of the changes that made a context the object and its text
show only what they make of each field. -/
theorem ofJson_toJson :
    (∀ c : Context,
      (∃ ms, c.toJson = .object ms ∧ Entries.Ascending ms ∧
        (∀ f, Entries.find? f ms = (c.lookup f).map Value.toJson) ∧
        ∀ l : List (String × Value), l.Perm c.entries →
          Entries.sort (l.map fun e => (e.1, e.2.toJson)) = ms) ∧
      ((∀ f v, c.lookup f = some v → ¬ v.IsLost) → ofJson c.toJson = .ok c) ∧
      ∃ d, ofJson c.toJson = .ok d ∧ ofJson d.toJson = .ok d ∧
        ∀ f v, d.lookup f = some v ↔ c.lookup f = some v ∧ ¬ v.IsLost) ∧
    ∀ (c c' : Context) (h h' : List Change),
      h.foldl Change.effect c.lookup = h'.foldl Change.effect c'.lookup →
        (c.after h).toJson = (c'.after h').toJson ∧
        (c.after h).toJson.render = (c'.after h').toJson.render := by
  refine ⟨fun c => ⟨?_, ofJson_toJson_of_not_isLost, ?_⟩, fun c c' h h' heffect => ?_⟩
  · exact ⟨c.members, rfl, c.members_ascending, c.find?_members, fun l => c.sort_of_perm⟩
  · obtain ⟨d, hd, hlookup⟩ := c.exists_ofJson_toJson
    refine ⟨d, hd, ?_, hlookup⟩
    apply ofJson_toJson_of_not_isLost
    intro f v hv
    exact ((hlookup f v).1 hv).2
  · have hsame : c.after h = c'.after h' := by
      apply eq_of_lookup_eq
      rw [lookup_after, lookup_after, heffect]
    rw [hsame]
    exact ⟨rfl, rfl⟩

def zeroBelow : Value := .number ⟨0x8000000000000000⟩

def noNumber : Value := .number ⟨0x7FF8000000000000⟩

/-- One field after the other. -/
def readings : List Change := [.insert "a" zeroBelow, .insert "b" noNumber]

/-- The same fields at once, over another value of one of them. -/
def readingsMerged : List Change :=
  [.insert "b" (.boolean true), .extend (.ofList [("b", noNumber), ("a", zeroBelow)])]

theorem readings_effect :
    readings.foldl Change.effect (lookup .empty) = readingsMerged.foldl Change.effect (lookup .empty) := by
  funext q
  have hmerged : lookup (.ofList [("b", noNumber), ("a", zeroBelow)]) q =
      Entries.find? q [("a", zeroBelow), ("b", noNumber)] := Keyed.find?_ofList _ q
  simp only [readings, readingsMerged, List.foldl_cons, List.foldl_nil, Change.effect, hmerged,
    Entries.find?]
  by_cases hb : "b" = q
  · subst hb
    rfl
  · by_cases ha : "a" = q <;> simp [ha, hb]

theorem ofJson_toJson_of_readings :
    (after .empty readings).toJson.render = (after .empty readingsMerged).toJson.render ∧
    ofJson (Context.toJson .empty) = .ok .empty ∧
    ∃ d, ofJson (after .empty readings).toJson = .ok d ∧ d.lookup "a" = some zeroBelow ∧
      d.lookup "b" = none := by
  obtain ⟨hcontext, hhistory⟩ := ofJson_toJson
  refine ⟨(hhistory _ _ _ _ readings_effect).2, (hcontext _).2.1 nofun, ?_⟩
  obtain ⟨-, -, d, hd, -, hlookup⟩ := hcontext (after .empty readings)
  refine ⟨d, hd, (hlookup _ _).2 ⟨rfl, ?_⟩, ?_⟩
  · rw [zeroBelow, Value.isLost_number_iff]
    decide
  · refine Option.eq_none_iff_forall_ne_some.2 fun v hv => ?_
    obtain ⟨hv, hnot⟩ := (hlookup "b" v).1 hv
    obtain rfl : noNumber = v := Option.some.inj hv
    exact hnot ⟨_, rfl, .inl (by decide)⟩

end Context

end Workflow
