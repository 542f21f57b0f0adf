import Workflow.Error
import Workflow.Context

/-!
Computations that read fields one at a time. What a query answers, and which fields it reads,
follows from the values it is given.
-/

namespace Workflow

inductive Query (α : Type) where
  | answer (r : Except EvaluationError α)
  | look (field : String) (next : Option Value → Query α)

namespace Query

variable {α β : Type}

def bind : Query α → (α → Query β) → Query β
  | answer (.ok a), f => f a
  | answer (.error e), _ => answer (.error e)
  | look k next, f => look k (fun v => (next v).bind f)

instance : Monad Query where
  pure a := answer (.ok a)
  bind := bind

def fail (e : EvaluationError) : Query α := answer (.error e)

/-- The value of a field. -/
def field (k : String) : Query (Option Value) := look k pure

def run (l : FieldLookup) : Query α → Except EvaluationError α
  | answer r => r
  | look k next => (next (l k)).run l

/-- The fields read, in order. -/
def reads (l : FieldLookup) : Query α → List String
  | answer _ => []
  | look k next => k :: (next (l k)).reads l

@[simp] theorem pure_eq (a : α) : (pure a : Query α) = answer (.ok a) := rfl

@[simp] theorem bind_eq (q : Query α) (f : α → Query β) : q >>= f = q.bind f := rfl

@[simp] theorem run_answer (l : FieldLookup) (r : Except EvaluationError α) :
    (answer r).run l = r := rfl

@[simp] theorem reads_answer (l : FieldLookup) (r : Except EvaluationError α) :
    (answer r).reads l = [] := rfl

@[simp] theorem run_look (l : FieldLookup) (k : String) (next : Option Value → Query α) :
    (look k next).run l = (next (l k)).run l := rfl

@[simp] theorem reads_look (l : FieldLookup) (k : String) (next : Option Value → Query α) :
    (look k next).reads l = k :: (next (l k)).reads l := rfl

@[simp] theorem run_bind (l : FieldLookup) (q : Query α) (f : α → Query β) :
    (q.bind f).run l = (q.run l).bind (fun a => (f a).run l) := by
  induction q with
  | answer r => cases r <;> rfl
  | look k next ih => exact ih (l k)

/-- A sequel reads its fields after the first query, if that has an answer. -/
theorem reads_bind (l : FieldLookup) (q : Query α) (f : α → Query β) :
    (q.bind f).reads l =
      q.reads l ++ ((q.run l).toOption.toList.flatMap (fun a => (f a).reads l)) := by
  induction q with
  | answer r => cases r <;> simp [bind, run, reads, Except.toOption]
  | look k next ih => simp only [bind, reads, run, ih (l k), List.cons_append]

end Query

end Workflow
