import Workflow.Wire.Loader
import Workflow.Proofs.Traverse

/-! What a draft means, and why one without a meaning is refused, each said without the checks. A
check gives the meaning of what it is asked about, or the reason for refusing it. -/

namespace Workflow

variable {α β ε : Type}

theorem exceptBind_eq_ok_iff {x : Except ε α} {f : α → Except ε β} {b : β} :
    (x >>= f) = .ok b ↔ ∃ a, x = .ok a ∧ f a = .ok b := by
  cases x with
  | error e => simp [Bind.bind, Except.bind]
  | ok a => simp [Bind.bind, Except.bind]

theorem exceptBind_eq_error_iff {x : Except ε α} {f : α → Except ε β} {e : ε} :
    (x >>= f) = .error e ↔ x = .error e ∨ ∃ a, x = .ok a ∧ f a = .error e := by
  cases x with
  | error e => simp [Bind.bind, Except.bind]
  | ok a => simp [Bind.bind, Except.bind]

theorem exceptBind_ok (a : α) (f : α → Except ε β) : (Except.ok a >>= f) = f a := rfl

theorem exceptBind_error (e : ε) (f : α → Except ε β) : (Except.error e >>= f) = .error e := rfl

theorem checkAll_eq_ok_iff {check : α → Except DefinitionError β} {l : List α} {m : List β} :
    checkAll check l = .ok m ↔ List.Forall₂ (fun a b => check a = .ok b) l m := by
  induction l generalizing m with
  | nil => simp [checkAll, eq_comm]
  | cons a r ih =>
    simp only [checkAll, exceptBind_eq_ok_iff, ih, List.forall₂_cons_left_iff]
    constructor
    · rintro ⟨b, hb, m, hm, h⟩
      cases h
      exact ⟨b, m, hb, hm, rfl⟩
    · rintro ⟨b, m, hb, hm, rfl⟩
      exact ⟨b, hb, m, hm, rfl⟩

/-- What is reported is the fault of the first faulty item. -/
theorem checkAll_eq_error_iff {check : α → Except DefinitionError β} {l : List α}
    {e : DefinitionError} :
    checkAll check l = .error e ↔
      ∃ front a rest, l = front ++ a :: rest ∧ (∀ x ∈ front, ∃ b, check x = .ok b) ∧
        check a = .error e := by
  induction l with
  | nil => simp [checkAll]
  | cons a r ih =>
    simp only [checkAll, exceptBind_eq_error_iff, ih]
    constructor
    · rintro (ha | ⟨b, hb, ⟨front, c, rest, rfl, hfront, hc⟩ | ⟨m, -, h⟩⟩)
      · exact ⟨[], a, r, rfl, by simp, ha⟩
      · exact ⟨a :: front, c, rest, rfl, by simpa [hb] using hfront, hc⟩
      · cases h
    · rintro ⟨front, c, rest, h, hfront, hc⟩
      cases front with
      | nil =>
        obtain ⟨rfl, rfl⟩ := List.cons.inj h
        exact .inl hc
      | cons x front =>
        obtain ⟨rfl, rfl⟩ := List.cons.inj h
        obtain ⟨⟨b, hb⟩, hfront⟩ := List.forall_mem_cons.1 hfront
        exact .inr ⟨b, hb, .inl ⟨front, c, rest, rfl, hfront, hc⟩⟩

/-- The first item without a meaning is refused with `e`. -/
def FirstRefused (Means : α → β → Prop) (Refused : α → ε → Prop) (l : List α) (e : ε) : Prop :=
  ∃ front a rest, l = front ++ a :: rest ∧ (∀ x ∈ front, ∃ b, Means x b) ∧ Refused a e

/-- A check gives the meaning of what it is asked about, or the reason for refusing it. -/
structure Decides (check : α → Except ε β) (Means : α → β → Prop) (Refused : α → ε → Prop) :
    Prop where
  ok : ∀ {a b}, check a = .ok b ↔ Means a b
  error : ∀ {a e}, check a = .error e ↔ Refused a e

section

variable {check : α → Except ε β} {Means : α → β → Prop} {Refused : α → ε → Prop}

/-- What is asked about either means something or is refused. -/
theorem Decides.means_or_refused (h : Decides check Means Refused) (a : α) :
    (∃ b, Means a b) ∨ ∃ e, Refused a e := by
  cases hcheck : check a with
  | ok b => exact .inl ⟨b, h.ok.1 hcheck⟩
  | error e => exact .inr ⟨e, h.error.1 hcheck⟩

theorem decides_of_means_or_refused (hok : ∀ {a b}, Means a b → check a = .ok b)
    (herror : ∀ {a e}, Refused a e → check a = .error e)
    (h : ∀ a, (∃ b, Means a b) ∨ ∃ e, Refused a e) : Decides check Means Refused where
  ok {a b} := by
    refine ⟨fun hb => ?_, hok⟩
    obtain ⟨b', hb'⟩ | ⟨e, he⟩ := h a
    · cases hb.symm.trans (hok hb')
      exact hb'
    · cases hb.symm.trans (herror he)
  error {a e} := by
    refine ⟨fun he => ?_, herror⟩
    obtain ⟨b, hb⟩ | ⟨e', he'⟩ := h a
    · cases he.symm.trans (hok hb)
    · cases he.symm.trans (herror he')
      exact he'

end

section

variable {check : α → Except DefinitionError β} {Means : α → β → Prop}
  {Refused : α → DefinitionError → Prop} (h : Decides check Means Refused)
include h

theorem Decides.all :
    Decides (checkAll check) (List.Forall₂ Means) (FirstRefused Means Refused) where
  ok {_ _} := by simp only [checkAll_eq_ok_iff, h.ok]
  error {_ _} := by simp only [checkAll_eq_error_iff, h.ok, h.error, FirstRefused]

end

/-- Numbers, booleans and strings are values. -/
inductive Json.Means : Json → Value → Prop
  | number (n : JsonNumber) : Means (.number n) (.number n.toBinary64)
  | bool (b : Bool) : Means (.bool b) (.boolean b)
  | text (s : String) : Means (.text s) (.text s)

/-- The operator is called by its name, and the literal is a value. -/
structure DraftCondition.Means (d : DraftCondition) (c : Condition) : Prop where
  field : c.field = d.field
  operator : c.comparison.name = d.operator
  literal : d.literal.Means c.literal

/-- The connective is called by its name, and there is a condition. -/
structure DraftGroup.Means (d : DraftGroup) (g : Group) : Prop where
  operator : g.connective.name = d.operator
  nonempty : g.conditions ≠ []
  conditions : List.Forall₂ DraftCondition.Means d.conditions g.conditions

/-- The flag says of which kind a rule is, and nothing is given that belongs to the other kind. -/
inductive DraftRule.Means : DraftRule → Rule → Prop
  | single {a : DraftCondition} {c : Condition} (h : a.Means c) :
      Means ⟨some false, none, none, some a⟩ (.single c)
  | grouped {c : Connective} {drafts : List DraftGroup} {groups : List Group}
      (nonempty : groups ≠ []) (h : List.Forall₂ DraftGroup.Means drafts groups) :
      Means ⟨some true, some c.name, some drafts, none⟩ (.grouped c groups)

/-- Nothing is changed but the rule of a gateway. -/
inductive DraftElement.Means : DraftElement → Element → Prop
  | task (name label : String) (k : Task) : Means (.task name label k) ⟨name, label, .task k⟩
  | gateway {g : DraftGateway} {r : Rule} (h : g.rule.Means r) :
      Means (.gateway g)
        ⟨g.name, g.label, .gateway ⟨g.elementType, r, g.nextIfTrue, g.nextIfFalse⟩⟩

structure Draft.Means (d : Draft) (p : Definition) : Prop where
  name : p.name = d.name
  label : p.label = d.label
  elements : List.Forall₂ DraftElement.Means d.elements p.elements

/-- Refusals of a condition of the gateway `element`. The operator comes before the literal. -/
inductive DraftCondition.Refused (element : String) (d : DraftCondition) : DefinitionError → Prop
  | operator (h : ∀ c : Comparison, c.name ≠ d.operator) :
      Refused element d (.unknownOperator element d.operator)
  | literal {c : Comparison} (hc : c.name = d.operator) (h : ∀ v, ¬ d.literal.Means v) :
      Refused element d (.unsupportedLiteral element d.field d.literal.render)

/-- The connective comes before the conditions. -/
inductive DraftGroup.Refused (element : String) (d : DraftGroup) : DefinitionError → Prop
  | operator (h : ∀ c : Connective, c.name ≠ d.operator) :
      Refused element d (.unknownOperator element d.operator)
  | condition {c : Connective} (hc : c.name = d.operator) {e : DefinitionError}
      (h : FirstRefused DraftCondition.Means (DraftCondition.Refused element) d.conditions e) :
      Refused element d e
  | empty {c : Connective} (hc : c.name = d.operator) (h : d.conditions = []) :
      Refused element d (.emptyGroup element)

/-- The flag comes first, then what belongs to the other kind, then what the kind asks for. -/
inductive DraftRule.Refused (element : String) : DraftRule → DefinitionError → Prop
  | flag {d : DraftRule} (hflag : d.isGroup = none) : Refused element d (.missingGroupFlag element)
  | groupFields {d : DraftRule} (hflag : d.isGroup = some false)
      (h : d.groups ≠ none ∨ d.combination ≠ none) :
      Refused element d
        (.malformedCondition element "'isGroup' is false but group fields are given")
  | noCondition : Refused element ⟨some false, none, none, none⟩
      (.malformedCondition element "'isGroup' is false but no 'condition' is given")
  | condition {a : DraftCondition} {e : DefinitionError} (h : a.Refused element e) :
      Refused element ⟨some false, none, none, some a⟩ e
  | singleCondition {d : DraftRule} (hflag : d.isGroup = some true) (h : d.condition ≠ none) :
      Refused element d
        (.malformedCondition element "'isGroup' is true but a single 'condition' is given")
  | noOperator {groups : Option (List DraftGroup)} :
      Refused element ⟨some true, none, groups, none⟩
        (.malformedCondition element
          "'isGroup' is true but no 'groupCombinationOperator' is given")
  | operator {s : String} {groups : Option (List DraftGroup)} (h : ∀ c : Connective, c.name ≠ s) :
      Refused element ⟨some true, some s, groups, none⟩ (.unknownOperator element s)
  | noGroups {c : Connective} : Refused element ⟨some true, some c.name, none, none⟩
      (.malformedCondition element "'isGroup' is true but no 'conditionGroups' are given")
  | group {c : Connective} {drafts : List DraftGroup} {e : DefinitionError}
      (h : FirstRefused DraftGroup.Means (DraftGroup.Refused element) drafts e) :
      Refused element ⟨some true, some c.name, some drafts, none⟩ e
  | empty {c : Connective} :
      Refused element ⟨some true, some c.name, some [], none⟩ (.emptyGroup element)

inductive DraftElement.Refused : DraftElement → DefinitionError → Prop
  | gateway {g : DraftGateway} {e : DefinitionError} (h : g.rule.Refused g.name e) :
      Refused (.gateway g) e

def Draft.Refused (d : Draft) (e : DefinitionError) : Prop :=
  FirstRefused DraftElement.Means DraftElement.Refused d.elements e

theorem Value.ofJson?_eq_some_iff {j : Json} {v : Value} : ofJson? j = some v ↔ j.Means v := by
  constructor
  · intro h
    cases j with
    | number n =>
      cases h
      exact .number n
    | bool b =>
      cases h
      exact .bool b
    | text s =>
      cases h
      exact .text s
    | _ => cases h
  · rintro (n | b | s) <;> rfl

theorem Comparison.ofName?_eq_some_iff {s : String} {c : Comparison} :
    ofName? s = some c ↔ c.name = s := by
  constructor
  · intro h
    simpa using List.find?_some h
  · rintro rfl
    cases c <;> decide

theorem Comparison.ofName?_eq_none_iff {s : String} :
    ofName? s = none ↔ ∀ c : Comparison, c.name ≠ s := by
  simp only [Option.eq_none_iff_forall_ne_some, ne_eq, ofName?_eq_some_iff]

theorem Connective.ofName?_eq_some_iff {s : String} {c : Connective} :
    ofName? s = some c ↔ c.name = s := by
  constructor
  · intro h
    simpa using List.find?_some h
  · rintro rfl
    cases c <;> decide

theorem Connective.ofName?_eq_none_iff {s : String} :
    ofName? s = none ↔ ∀ c : Connective, c.name ≠ s := by
  simp only [Option.eq_none_iff_forall_ne_some, ne_eq, ofName?_eq_some_iff]

theorem Group.ofConditions?_eq_some_iff {c : Connective} {l : List Condition} {g : Group} :
    ofConditions? c l = some g ↔ l ≠ [] ∧ g = ⟨c, l⟩ := by
  cases l <;> simp [ofConditions?, eq_comm]

theorem Rule.ofGroups?_eq_some_iff {c : Connective} {groups : List Group} {r : Rule} :
    ofGroups? c groups = some r ↔ complete groups = true ∧ r = .grouped c groups := by
  simp only [ofGroups?, Option.ite_none_right_eq_some, Option.some.injEq, @eq_comm _ r]

theorem Value.ofJson?_of_forall_not_means {j : Json} (h : ∀ v, ¬ j.Means v) :
    ofJson? j = none := by
  simp only [Option.eq_none_iff_forall_ne_some, ne_eq, ofJson?_eq_some_iff, h, not_false_eq_true,
    implies_true]

theorem DraftCondition.means_or_refused (element : String) (d : DraftCondition) :
    (∃ c, d.Means c) ∨ ∃ e, d.Refused element e := by
  by_cases hoperator : ∃ c : Comparison, c.name = d.operator
  · obtain ⟨c, hc⟩ := hoperator
    by_cases hliteral : ∃ v, d.literal.Means v
    · obtain ⟨v, hv⟩ := hliteral
      exact .inl ⟨⟨d.field, c, v⟩, rfl, hc, hv⟩
    · exact .inr ⟨_, .literal hc (not_exists.1 hliteral)⟩
  · exact .inr ⟨_, .operator (not_exists.1 hoperator)⟩

theorem DraftCondition.check_decides (element : String) :
    Decides (check element) Means (Refused element) := by
  refine decides_of_means_or_refused (fun {d c} h => ?_) (fun {d e} h => ?_)
    (means_or_refused element)
  · rw [check, Comparison.ofName?_eq_some_iff.2 h.operator, Value.ofJson?_eq_some_iff.2 h.literal,
      ← h.field]
  · cases h with
    | operator h => rw [check, Comparison.ofName?_eq_none_iff.2 h]
    | literal hc h =>
      rw [check, Comparison.ofName?_eq_some_iff.2 hc, Value.ofJson?_of_forall_not_means h]

theorem DraftGroup.means_or_refused (element : String) (d : DraftGroup) :
    (∃ g, d.Means g) ∨ ∃ e, d.Refused element e := by
  by_cases hoperator : ∃ c : Connective, c.name = d.operator
  · obtain ⟨c, hc⟩ := hoperator
    obtain ⟨l, hl⟩ | ⟨e, he⟩ :=
      (DraftCondition.check_decides element).all.means_or_refused d.conditions
    · by_cases hempty : l = []
      · exact .inr ⟨_, .empty hc (List.forall₂_nil_right_iff.1 (hempty ▸ hl))⟩
      · exact .inl ⟨⟨c, l⟩, hc, hempty, hl⟩
    · exact .inr ⟨e, .condition hc he⟩
  · exact .inr ⟨_, .operator (not_exists.1 hoperator)⟩

theorem checkConnective_name (element : String) (c : Connective) :
    checkConnective element c.name = .ok c := by
  rw [checkConnective, Connective.ofName?_eq_some_iff.2 rfl]

theorem checkConnective_of_forall_ne {s : String} (h : ∀ c : Connective, c.name ≠ s)
    (element : String) : checkConnective element s = .error (.unknownOperator element s) := by
  rw [checkConnective, Connective.ofName?_eq_none_iff.2 h]

theorem DraftGroup.check_decides (element : String) :
    Decides (check element) Means (Refused element) := by
  have hall := (DraftCondition.check_decides element).all
  refine decides_of_means_or_refused (fun {d g} h => ?_) (fun {d e} h => ?_)
    (means_or_refused element)
  · simp only [check, ← h.operator, checkConnective_name, hall.ok.2 h.conditions, exceptBind_ok]
    rw [Group.ofConditions?_eq_some_iff.2 ⟨h.nonempty, rfl⟩]
  · cases h with
    | operator h => rw [check, checkConnective_of_forall_ne h, exceptBind_error]
    | condition hc h =>
      rw [check, ← hc, checkConnective_name, exceptBind_ok, hall.error.2 h, exceptBind_error]
    | empty hc h =>
      rw [check, ← hc, checkConnective_name, exceptBind_ok, h]
      rfl

/-- Groups that mean something are not empty, so only the list of them can be. -/
theorem Rule.complete_iff_of_means {drafts : List DraftGroup} {groups : List Group}
    (h : List.Forall₂ DraftGroup.Means drafts groups) : complete groups = true ↔ groups ≠ [] := by
  rw [complete_iff, and_iff_left_iff_imp]
  intro _ g hg
  obtain ⟨a, -, ha⟩ := exists_left_of_forall₂ h hg
  exact ha.nonempty

namespace DraftRule

theorem means_or_refused (element : String) (d : DraftRule) :
    (∃ r, d.Means r) ∨ ∃ e, d.Refused element e := by
  match d with
  | ⟨none, _, _, _⟩ => exact .inr ⟨_, .flag rfl⟩
  | ⟨some false, _, some _, _⟩ => exact .inr ⟨_, .groupFields rfl (.inl nofun)⟩
  | ⟨some false, some _, _, _⟩ => exact .inr ⟨_, .groupFields rfl (.inr nofun)⟩
  | ⟨some false, none, none, none⟩ => exact .inr ⟨_, .noCondition⟩
  | ⟨some false, none, none, some a⟩ =>
    obtain ⟨c, hc⟩ | ⟨e, he⟩ := a.means_or_refused element
    · exact .inl ⟨_, .single hc⟩
    · exact .inr ⟨e, .condition he⟩
  | ⟨some true, _, _, some _⟩ => exact .inr ⟨_, .singleCondition rfl nofun⟩
  | ⟨some true, none, _, none⟩ => exact .inr ⟨_, .noOperator⟩
  | ⟨some true, some s, groups, none⟩ =>
    by_cases hoperator : ∃ c : Connective, c.name = s
    · obtain ⟨c, rfl⟩ := hoperator
      match groups with
      | none => exact .inr ⟨_, .noGroups⟩
      | some [] => exact .inr ⟨_, .empty⟩
      | some (a :: r) =>
        obtain ⟨l, hl⟩ | ⟨e, he⟩ :=
          (DraftGroup.check_decides element).all.means_or_refused (a :: r)
        · have hne : l ≠ [] := by
            rintro rfl
            cases hl
          exact .inl ⟨_, .grouped hne hl⟩
        · exact .inr ⟨e, .group he⟩
    · exact .inr ⟨_, .operator (not_exists.1 hoperator)⟩

theorem check_grouped (element : String) (c : Connective) (drafts : List DraftGroup) :
    check element ⟨some true, some c.name, some drafts, none⟩ =
      checkAll (DraftGroup.check element) drafts >>= fun groups =>
        (Rule.ofGroups? c groups).elim (.error (.emptyGroup element)) .ok := by
  simp only [check, checkGrouped, Option.isSome_none, Bool.false_eq_true, if_false,
    checkConnective_name, exceptBind_ok]
  refine congrArg _ (funext fun groups => ?_)
  cases Rule.ofGroups? c groups <;> rfl

theorem check_decides (element : String) : Decides (check element) Means (Refused element) := by
  have hsingle := DraftCondition.check_decides element
  have hall := (DraftGroup.check_decides element).all
  refine decides_of_means_or_refused (fun {d r} h => ?_) (fun {d e} h => ?_)
    (means_or_refused element)
  · cases h with
    | single h => simp [check, checkSingle, hsingle.ok.2 h]
    | grouped hne h =>
      rw [check_grouped, hall.ok.2 h, exceptBind_ok,
        Rule.ofGroups?_eq_some_iff.2 ⟨(Rule.complete_iff_of_means h).2 hne, rfl⟩, Option.elim_some]
  · cases h with
    | flag hflag => rw [check, hflag]
    | groupFields hflag h =>
      rw [check, hflag]
      simp [checkSingle, Option.isSome_iff_ne_none, h]
    | noCondition => rfl
    | condition h => simp [check, checkSingle, hsingle.error.2 h]
    | singleCondition hflag h =>
      rw [check, hflag]
      simp [checkGrouped, Option.isSome_iff_ne_none, h]
    | noOperator => rfl
    | operator h => simp [check, checkGrouped, checkConnective_of_forall_ne h, exceptBind_error]
    | noGroups => simp [check, checkGrouped, checkConnective_name, exceptBind_ok]
    | group h => rw [check_grouped, hall.error.2 h, exceptBind_error]
    | empty =>
      rw [check_grouped]
      rfl

end DraftRule

theorem DraftElement.means_or_refused (d : DraftElement) :
    (∃ e, d.Means e) ∨ ∃ e, d.Refused e := by
  cases d with
  | task name label k => exact .inl ⟨_, .task name label k⟩
  | gateway g =>
    obtain ⟨r, hr⟩ | ⟨e, he⟩ := g.rule.means_or_refused g.name
    · exact .inl ⟨_, .gateway hr⟩
    · exact .inr ⟨e, .gateway he⟩

theorem DraftElement.check_decides : Decides check Means Refused := by
  refine decides_of_means_or_refused (fun {d e} h => ?_) (fun {d e} h => ?_) means_or_refused
  · cases h with
    | task => rfl
    | gateway h =>
      rw [check, (DraftRule.check_decides _).ok.2 h]
      rfl
  · cases h with
    | gateway h =>
      rw [check, (DraftRule.check_decides _).error.2 h]
      rfl

theorem Draft.check_decides : Decides check Means Refused := by
  have hall := DraftElement.check_decides.all
  refine decides_of_means_or_refused (fun {d p} h => ?_) (fun {d e} h => ?_) fun d => ?_
  · rw [check, hall.ok.2 h.elements, ← h.name, ← h.label]
    rfl
  · rw [check, hall.error.2 h]
    rfl
  · obtain ⟨l, hl⟩ | ⟨e, he⟩ := hall.means_or_refused d.elements
    · exact .inl ⟨⟨d.name, d.label, l⟩, rfl, rfl, hl⟩
    · exact .inr ⟨e, he⟩

end Workflow
