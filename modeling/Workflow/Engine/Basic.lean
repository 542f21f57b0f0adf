import Workflow.Decision
import Workflow.Definition.Index

/-!
Resolving elements: which element follows one, for the data at hand.
-/

namespace Workflow

structure Settings where
  textOrder : TextOrder := .lexicographic
  /-- Read the fields that a rule refers to once each, before it is evaluated. -/
  projectFields : Bool := false
  /-- Refuse tasks whose end flag disagrees with their link. -/
  strictEndFlags : Bool := false
  /-- The most elements that a run may visit. -/
  maxSteps : Nat := 1000
deriving DecidableEq

/-- A disagreement between the link of a task and its end flag. -/
inductive Warning where
  | missingNext (element : String)
  | nextOnEndTask (element next : String)
deriving DecidableEq

namespace Warning

def message : Warning → String
  | missingNext element => s!"task '{element}' has no next element but is not an end task"
  | nextOnEndTask element next => s!"task '{element}' is an end task but links to '{next}'"

/-- What is wrong with the end flag of an element. -/
def of? (e : Element) : Option Warning :=
  e.task?.bind fun t =>
    match t.next, t.isEnd with
    | none, false => some (missingNext e.name)
    | some n, true => some (nextOnEndTask e.name n)
    | _, _ => none

end Warning

/-- How a successor was chosen. -/
inductive Via where
  | task
  | gateway (outcome : Bool) (trace : Trace)

/-- One step from an element; without `next` the branch ends. -/
structure Resolution where
  source : String
  next : Option String
  via : Via
  warning : Option Warning

/-- A process with its index, ready to be resolved. -/
structure Engine where
  definition : Definition
  settings : Settings
  index : Index
  indexed : Index.build definition = .ok index

namespace Engine

/-- The first element with a warning. -/
def firstInconsistent? (p : Definition) : Option Element :=
  p.elements.find? (fun e => (Warning.of? e).isSome)

def build (p : Definition) (s : Settings) : Except DefinitionError Engine :=
  match h : Index.build p with
  | .error e => .error e
  | .ok i =>
    match s.strictEndFlags, firstInconsistent? p with
    | true, some e => .error (.endFlagMismatch e.name)
    | _, _ => .ok ⟨p, s, i, h⟩

def element (g : Engine) (name : String) : Except EvaluationError Element :=
  g.index.get g.definition name

/-- Evaluates something that depends on a rule's fields, over the data or over the part of it that
the rule refers to. -/
def projecting (g : Engine) (r : Rule) (q : Query α) : Query α :=
  if g.settings.projectFields then do
    let c ← r.project
    .answer (q.run c.lookup)
  else q

def decide (g : Engine) (r : Rule) : Query Bool := g.projecting r (r.decide g.settings.textOrder)

def explain (g : Engine) (r : Rule) : Query Trace := g.projecting r (r.explain g.settings.textOrder)

def resolveNext (g : Engine) (name : String) : Query (Option String) := do
  let e ← Query.answer (g.element name)
  match e.kind with
  | .task t => return t.next
  | .gateway w => return w.successor (← g.decide w.rule)

def resolve (g : Engine) (name : String) : Query Resolution := do
  let e ← Query.answer (g.element name)
  match e.kind with
  | .task t => return ⟨e.name, t.next, .task, Warning.of? e⟩
  | .gateway w => do
    let t ← g.explain w.rule
    return ⟨e.name, w.successor t.outcome, .gateway t.outcome t, none⟩

/-- Resolves one element for each of many contexts. -/
def resolveBatch (g : Engine) (name : String) (cs : List Context) :
    List (Except EvaluationError (Option String)) :=
  cs.map (fun c => (g.resolveNext name).run c.lookup)

def start (g : Engine) : Except DefinitionError Element := g.definition.start

end Engine

end Workflow
