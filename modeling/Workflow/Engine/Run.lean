import Workflow.Engine.Basic

/-!
Runs: a process is driven from its start task until an element ends it. Tasks are done by an
executor, which may change the data.
-/

namespace Workflow

/-- What an executor gives back for a task that it has done. -/
structure Completion where
  context : Context
  patchedFields : List String

/-- Does a task on the data at hand; a message says why it failed. `σ` is what the executor
remembers between calls. -/
abbrev Executor (σ : Type) := σ → Element → Task → Context → Except String Completion × σ

namespace Executor

/-- Leaves the data alone and reports the fields that the task names as patched. -/
def passthrough : Executor Unit := fun _ _ t c => (.ok ⟨c, t.modelPatchFields⟩, ())

end Executor

/-- One call of an executor. -/
structure Call where
  element : Element
  context : Context

/-- How far a run has come: the element it stands before, and all that was done so far. -/
structure Progress (σ : Type) where
  current : String
  context : Context
  visited : Array String
  patchedFields : Array String
  warnings : Array Warning
  calls : Array Call
  executor : σ

/-- Why a run goes no further. -/
inductive Stop where
  | halted
  | failed (e : EvaluationError)

structure Outcome where
  visited : List String
  context : Context
  patchedFields : List String
  warnings : List Warning

namespace Outcome

/-- The element that ended the run. -/
def haltedAt (o : Outcome) : Option String := o.visited.getLast?

end Outcome

/-- A run that has ended, with all calls of its executor. -/
structure Report (σ : Type) where
  result : Except EvaluationError Outcome
  visited : List String
  calls : List Call
  executor : σ

namespace Engine

variable {σ : Type}

/-- Does the task of an element. Gateways have nothing to do. -/
def perform (x : Executor σ) (e : Element) (p : Progress σ) :
    Except EvaluationError Unit × Progress σ :=
  match e.kind with
  | .gateway _ => (.ok (), p)
  | .task t =>
    let (r, s) := x p.executor e t p.context
    let p := { p with executor := s, calls := p.calls.push ⟨e, p.context⟩ }
    match r with
    | .error message => (.error (.taskFailed e.name message), p)
    | .ok done =>
      (.ok (), { p with
        context := done.context
        patchedFields := p.patchedFields ++ done.patchedFields.toArray })

/-- The element ends a run whatever it links to. -/
def halts (e : Element) : Bool := e.task?.any Task.isEnd

/-- Visits the current element and moves on to the next, or stops. -/
def step (g : Engine) (x : Executor σ) (p : Progress σ) : Progress σ × Option Stop :=
  match g.element p.current with
  | .error err => (p, some (.failed err))
  | .ok e =>
    match perform x e { p with visited := p.visited.push e.name } with
    | (.error err, p) => (p, some (.failed err))
    | (.ok (), p) =>
      match (g.resolve p.current).run p.context.lookup with
      | .error err => (p, some (.failed err))
      | .ok r =>
        let p := { p with warnings := p.warnings ++ r.warning.toArray }
        match r.next, halts e with
        | some n, false => ({ p with current := n }, none)
        | _, _ => (p, some .halted)

/-- At most `n` steps. -/
def drive (g : Engine) (x : Executor σ) : Nat → Progress σ → Progress σ × Stop
  | 0, p => (p, .failed (.stepLimit g.settings.maxSteps))
  | n + 1, p =>
    match g.step x p with
    | (p, some stop) => (p, stop)
    | (p, none) => drive g x n p

namespace Progress

def begin (start : String) (c : Context) (s : σ) : Progress σ :=
  ⟨start, c, #[], #[], #[], #[], s⟩

def report (p : Progress σ) (stop : Stop) : Report σ where
  result :=
    match stop with
    | .halted => .ok ⟨p.visited.toList, p.context, p.patchedFields.toList, p.warnings.toList⟩
    | .failed e => .error e
  visited := p.visited.toList
  calls := p.calls.toList
  executor := p.executor

end Progress

/-- Runs the process from its start task. -/
def run (g : Engine) (x : Executor σ) (s : σ) (c : Context) : Report σ :=
  match g.start with
  | .error e => ⟨.error (.definition e), [], [], s⟩
  | .ok e =>
    let (p, stop) := g.drive x g.settings.maxSteps (Progress.begin e.name c s)
    Progress.report p stop

end Engine

end Workflow
