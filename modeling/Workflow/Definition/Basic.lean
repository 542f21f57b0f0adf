import Workflow.Condition
import Workflow.Json.Parser
import Workflow.Json.Printer

/-!
Processes: named elements, each a task with at most one successor or a gateway with one for each
outcome of its rule.
-/

namespace Workflow

/-- JSON that is carried along as text and not looked into. -/
structure Payload where
  text : String
deriving DecidableEq, Inhabited

namespace Payload

def ofJson (v : Json) : Payload := ⟨v.render⟩

/-- The empty text stands for null. -/
def value? (p : Payload) : Option Json := if p.text = "" then some .null else Json.parse? p.text

end Payload

/-- A query parameter that is filled from a field. -/
structure QueryParameter where
  modelField : String
  parameter : String
deriving DecidableEq, Inhabited

/-- The call that a remote task makes. -/
structure Request where
  url : String
  method : String
  queryParameters : List QueryParameter
  body : List String
deriving DecidableEq, Inhabited

structure Task where
  elementType : String
  isStart : Bool
  isEnd : Bool
  block : Bool
  next : Option String
  events : Payload
  actors : Payload
  request : Option Request
  modelPatchFields : List String
deriving DecidableEq, Inhabited

namespace Task

/-- It ends the process just if it has no successor. -/
def endFlagConsistent (t : Task) : Bool := t.next.isNone = t.isEnd

end Task

structure Gateway where
  elementType : String
  rule : Rule
  nextIfTrue : Option String
  nextIfFalse : Option String
deriving DecidableEq, Inhabited

namespace Gateway

def successor (g : Gateway) (outcome : Bool) : Option String :=
  if outcome then g.nextIfTrue else g.nextIfFalse

/-- Equality, with the numbers of the rule compared by value. -/
def equal (g h : Gateway) : Bool :=
  g.elementType = h.elementType && g.rule.equal h.rule && g.nextIfTrue = h.nextIfTrue &&
    g.nextIfFalse = h.nextIfFalse

end Gateway

inductive ElementKind where
  | task (t : Task)
  | gateway (g : Gateway)
deriving DecidableEq, Inhabited

namespace ElementKind

def equal : ElementKind → ElementKind → Bool
  | task t, task u => t = u
  | gateway g, gateway h => g.equal h
  | _, _ => false

end ElementKind

structure Element where
  name : String
  label : String
  kind : ElementKind
deriving DecidableEq, Inhabited

namespace Element

def task? (e : Element) : Option Task :=
  match e.kind with
  | .task t => some t
  | .gateway _ => none

def gateway? (e : Element) : Option Gateway :=
  match e.kind with
  | .task _ => none
  | .gateway g => some g

/-- The names that the element links to; of a gateway first the one for true. -/
def successors (e : Element) : List String :=
  match e.kind with
  | .task t => t.next.toList
  | .gateway g => g.nextIfTrue.toList ++ g.nextIfFalse.toList

def isStart (e : Element) : Bool := e.task?.any Task.isStart

def equal (e f : Element) : Bool := e.name = f.name && e.label = f.label && e.kind.equal f.kind

end Element

structure Definition where
  name : String
  label : String
  elements : List Element
deriving DecidableEq, Inhabited

namespace Definition

def names (p : Definition) : List String := p.elements.map Element.name

/-- The tasks that the process may start with. -/
def starts (p : Definition) : List Element := p.elements.filter Element.isStart

/-- The task that the process starts with. -/
def start (p : Definition) : Except DefinitionError Element :=
  match p.starts with
  | [e] => .ok e
  | es => .error (.startCount es.length)

/-- Equality, with numbers compared by value. -/
def equal (p q : Definition) : Bool :=
  p.name = q.name && p.label = q.label && equalLists Element.equal p.elements q.elements

end Definition

end Workflow
