import Workflow.Wire.Reader

/-!
Checking a draft and turning it into a process. Elements, groups and conditions are checked in
order, and the first fault is reported. Links between elements are not looked at.
-/

namespace Workflow

namespace DraftCondition

/-- The operator is checked before the literal. -/
def check (element : String) (c : DraftCondition) : Except DefinitionError Condition :=
  match Comparison.ofName? c.operator with
  | none => .error (.unknownOperator element c.operator)
  | some comparison =>
    match Value.ofJson? c.literal with
    | none => .error (.unsupportedLiteral element c.field c.literal.render)
    | some literal => .ok ⟨c.field, comparison, literal⟩

end DraftCondition

def checkConnective (element operator : String) : Except DefinitionError Connective :=
  match Connective.ofName? operator with
  | none => .error (.unknownOperator element operator)
  | some c => .ok c

/-- Checks items in order up to the first fault. -/
def checkAll (check : α → Except DefinitionError β) : List α → Except DefinitionError (List β)
  | [] => .ok []
  | a :: r => do
    let b ← check a
    return b :: (← checkAll check r)

namespace DraftGroup

def check (element : String) (g : DraftGroup) : Except DefinitionError Group := do
  let connective ← checkConnective element g.operator
  let conditions ← checkAll (DraftCondition.check element) g.conditions
  match Group.ofConditions? connective conditions with
  | none => .error (.emptyGroup element)
  | some g => .ok g

end DraftGroup

namespace DraftRule

def checkSingle (element : String) (r : DraftRule) : Except DefinitionError Rule :=
  if r.groups.isSome || r.combination.isSome then
    .error (.malformedCondition element "'isGroup' is false but group fields are given")
  else
    match r.condition with
    | none =>
      .error (.malformedCondition element "'isGroup' is false but no 'condition' is given")
    | some c => do return .single (← c.check element)

def checkGrouped (element : String) (r : DraftRule) : Except DefinitionError Rule :=
  if r.condition.isSome then
    .error (.malformedCondition element "'isGroup' is true but a single 'condition' is given")
  else
    match r.combination with
    | none =>
      .error (.malformedCondition element
        "'isGroup' is true but no 'groupCombinationOperator' is given")
    | some operator => do
      let combination ← checkConnective element operator
      match r.groups with
      | none =>
        .error (.malformedCondition element
          "'isGroup' is true but no 'conditionGroups' are given")
      | some drafts => do
        let groups ← checkAll (DraftGroup.check element) drafts
        match Rule.ofGroups? combination groups with
        | none => .error (.emptyGroup element)
        | some rule => .ok rule

def check (element : String) (r : DraftRule) : Except DefinitionError Rule :=
  match r.isGroup with
  | none => .error (.missingGroupFlag element)
  | some false => r.checkSingle element
  | some true => r.checkGrouped element

end DraftRule

namespace DraftElement

def check : DraftElement → Except DefinitionError Element
  | task name label t => .ok ⟨name, label, .task t⟩
  | gateway g => do
    let rule ← g.rule.check g.name
    return ⟨g.name, g.label, .gateway ⟨g.elementType, rule, g.nextIfTrue, g.nextIfFalse⟩⟩

end DraftElement

namespace Draft

def check (d : Draft) : Except DefinitionError Definition := do
  return ⟨d.name, d.label, ← checkAll DraftElement.check d.elements⟩

end Draft

namespace Definition

/-- The shape of the whole text is read before anything is checked. -/
def ofText (s : String) : Except DefinitionError Definition :=
  match (Json.Tree.parse? s).bind Draft.ofTree? with
  | none => .error (.unparsable "not a JSON text, or not the shape of a process")
  | some d => d.check

end Definition

end Workflow
