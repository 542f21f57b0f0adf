import Workflow.Query
import Workflow.Trace

/-!
Evaluating rules. A rule is read from left to right and no further than its outcome needs.
-/

namespace Workflow

/-- Whether texts have an order. -/
inductive TextOrder where
  | lexicographic
  | reject
deriving DecidableEq

/-- A field without a value, and values without an order, stand in no relation. -/
def Comparison.holds (order : TextOrder) (op : Comparison) (found : Option Value)
    (expected : Value) : Bool :=
  match found with
  | none => false
  | some v =>
    match op with
    | .equal => v.equal? expected = some true
    | .notEqual => v.equal? expected = some false
    | op => (v.compare? (order = .lexicographic) expected).any op.admits

namespace Condition

def decide (order : TextOrder) (c : Condition) : Query Bool := do
  return c.comparison.holds order (← Query.field c.field) c.literal

def explain (order : TextOrder) (c : Condition) : Query Trace := do
  let found ← Query.field c.field
  return .comparison c.field c.comparison found c.literal (c.comparison.holds order found c.literal)

end Condition

namespace Connective

variable {α : Type}

/-- Decides items in turn up to the first that is decisive. -/
def scan (c : Connective) (decide : α → Query Bool) : List α → Query Bool
  | [] => return !c.decisive
  | a :: r => do
    if (← decide a) = c.decisive then return c.decisive
    scan c decide r

/-- A list without items has no outcome. -/
def decideAll (c : Connective) (level : GroupLevel) (decide : α → Query Bool) (l : List α) :
    Query Bool :=
  if l.isEmpty then .fail (.emptyGroup level) else c.scan decide l

/-- The items explained, the number of those left, and the outcome. -/
structure Scan where
  children : List Trace
  skipped : Nat
  outcome : Bool

/-- Explains items in turn up to the first that is decisive. -/
def scanTraced (c : Connective) (explain : α → Query Trace) : List α → Query Scan
  | [] => return ⟨[], 0, !c.decisive⟩
  | a :: r => do
    let t ← explain a
    if t.outcome = c.decisive then return ⟨[t], r.length, c.decisive⟩
    let s ← scanTraced c explain r
    return ⟨t :: s.children, s.skipped, s.outcome⟩

def explainAll (c : Connective) (level : GroupLevel) (explain : α → Query Trace) (l : List α) :
    Query Trace :=
  if l.isEmpty then .fail (.emptyGroup level) else do
    let s ← c.scanTraced explain l
    return .group c s.children s.skipped s.outcome

theorem scan_cons (c : Connective) (decide : α → Query Bool) (a : α) (r : List α) :
    c.scan decide (a :: r) = (decide a).bind fun b =>
      if b = c.decisive then .answer (.ok c.decisive) else c.scan decide r := rfl

theorem scanTraced_cons (c : Connective) (explain : α → Query Trace) (a : α) (r : List α) :
    c.scanTraced explain (a :: r) = (explain a).bind fun t =>
      if t.outcome = c.decisive then .answer (.ok ⟨[t], r.length, c.decisive⟩)
      else (c.scanTraced explain r).bind fun s =>
        .answer (.ok ⟨t :: s.children, s.skipped, s.outcome⟩) := rfl

theorem decideAll_of_ne_nil (c : Connective) (level : GroupLevel) (decide : α → Query Bool)
    {l : List α} (h : l ≠ []) : c.decideAll level decide l = c.scan decide l := by
  simp [decideAll, h]

theorem explainAll_of_ne_nil (c : Connective) (level : GroupLevel) (explain : α → Query Trace)
    {l : List α} (h : l ≠ []) : c.explainAll level explain l =
      (c.scanTraced explain l).bind fun s =>
        .answer (.ok (.group c s.children s.skipped s.outcome)) := by
  simp [explainAll, h]

end Connective

namespace Group

def decide (order : TextOrder) (g : Group) : Query Bool :=
  g.connective.decideAll .conditions (Condition.decide order) g.conditions

def explain (order : TextOrder) (g : Group) : Query Trace :=
  g.connective.explainAll .conditions (Condition.explain order) g.conditions

end Group

namespace Rule

def decide (order : TextOrder) : Rule → Query Bool
  | single c => c.decide order
  | grouped c groups => c.decideAll .groups (Group.decide order) groups

def explain (order : TextOrder) : Rule → Query Trace
  | single c => c.explain order
  | grouped c groups => c.explainAll .groups (Group.explain order) groups

/-- The fields of a list that have a value, each read once. -/
def readAll : List String → Query (List (String × Value))
  | [] => return []
  | k :: r => do
    match ← Query.field k with
    | some v => return (k, v) :: (← readAll r)
    | none => readAll r

/-- The part of the data that a rule refers to. -/
def project (r : Rule) : Query Context := do return .ofList (← readAll r.fields)

end Rule

end Workflow
