import Workflow.Definition.Basic

/-!
Processes as their texts give them: the shape is right, the rules of gateways are unchecked.
-/

namespace Workflow

structure DraftCondition where
  field : String
  operator : String
  literal : Json

structure DraftGroup where
  operator : String
  conditions : List DraftCondition

structure DraftRule where
  isGroup : Option Bool
  combination : Option String
  groups : Option (List DraftGroup)
  condition : Option DraftCondition

structure DraftGateway where
  name : String
  label : String
  elementType : String
  rule : DraftRule
  nextIfTrue : Option String
  nextIfFalse : Option String

inductive DraftElement where
  | task (name label : String) (t : Task)
  | gateway (g : DraftGateway)

structure Draft where
  name : String
  label : String
  elements : List DraftElement

end Workflow
