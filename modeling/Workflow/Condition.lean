import Workflow.Value
import Workflow.Error

/-!
Conditions on fields, and how a gateway combines them. A gateway has one condition, or groups of
conditions under two levels of connectives.
-/

namespace Workflow

inductive Comparison where
  | greaterThan
  | equal
  | lessThan
  | notEqual
  | greaterThanOrEqual
  | lessThanOrEqual
deriving DecidableEq, Inhabited

namespace Comparison

def all : List Comparison :=
  [greaterThan, equal, lessThan, notEqual, greaterThanOrEqual, lessThanOrEqual]

def name : Comparison → String
  | greaterThan => "greaterThan"
  | equal => "equal"
  | lessThan => "lessThan"
  | notEqual => "notEqual"
  | greaterThanOrEqual => "greaterThanOrEqual"
  | lessThanOrEqual => "lessThanOrEqual"

def ofName? (s : String) : Option Comparison := all.find? (·.name = s)

/-- The name with a capital. -/
def title : Comparison → String
  | greaterThan => "GreaterThan"
  | equal => "Equal"
  | lessThan => "LessThan"
  | notEqual => "NotEqual"
  | greaterThanOrEqual => "GreaterThanOrEqual"
  | lessThanOrEqual => "LessThanOrEqual"

def ofTitle? (s : String) : Option Comparison := all.find? (·.title = s)

def symbol : Comparison → String
  | greaterThan => ">"
  | equal => "=="
  | lessThan => "<"
  | notEqual => "!="
  | greaterThanOrEqual => ">="
  | lessThanOrEqual => "<="

/-- It asks for an order, not for equality. -/
def isRelational : Comparison → Bool
  | equal | notEqual => false
  | _ => true

/-- Whether two values in the given order stand in the relation. -/
def admits : Comparison → Ordering → Bool
  | greaterThan, o => o = .gt
  | lessThan, o => o = .lt
  | greaterThanOrEqual, o => o ≠ .lt
  | lessThanOrEqual, o => o ≠ .gt
  | equal, o => o = .eq
  | notEqual, o => o ≠ .eq

end Comparison

inductive Connective where
  | and
  | or
deriving DecidableEq, Inhabited

namespace Connective

def all : List Connective := [and, or]

def name : Connective → String
  | and => "AND"
  | or => "OR"

def ofName? (s : String) : Option Connective := all.find? (·.name = s)

def title : Connective → String
  | and => "And"
  | or => "Or"

def ofTitle? (s : String) : Option Connective := all.find? (·.title = s)

/-- The outcome of one item that settles the outcome of all. -/
def decisive : Connective → Bool
  | and => false
  | or => true

end Connective

/-- A field compared with a literal. -/
structure Condition where
  field : String
  comparison : Comparison
  literal : Value
deriving DecidableEq, Inhabited

namespace Condition

def equal (c d : Condition) : Bool :=
  c.field = d.field && c.comparison = d.comparison && c.literal.equal d.literal

def hashed (c : Condition) : Condition := { c with literal := c.literal.hashed }

end Condition

/-- Two lists of one length whose items are equal in pairs. -/
def equalLists (equal : α → α → Bool) : List α → List α → Bool
  | [], [] => true
  | a :: l, b :: m => equal a b && equalLists equal l m
  | _, _ => false

/-- Conditions under one connective. A group that can be evaluated has at least one. -/
structure Group where
  connective : Connective
  conditions : List Condition
deriving DecidableEq, Inhabited

namespace Group

def ofConditions? (c : Connective) (l : List Condition) : Option Group :=
  if l.isEmpty then none else some ⟨c, l⟩

def equal (g h : Group) : Bool :=
  g.connective = h.connective && equalLists Condition.equal g.conditions h.conditions

def hashed (g : Group) : Group := { g with conditions := g.conditions.map Condition.hashed }

end Group

/-- What a gateway decides by. -/
inductive Rule where
  | single (c : Condition)
  | grouped (combination : Connective) (groups : List Group)
deriving DecidableEq, Inhabited

namespace Rule

/-- There are groups, and none is empty. -/
def complete (groups : List Group) : Bool :=
  !groups.isEmpty && groups.all (fun g => !g.conditions.isEmpty)

def ofGroups? (c : Connective) (groups : List Group) : Option Rule :=
  if complete groups then some (grouped c groups) else none

def wellFormed : Rule → Bool
  | single _ => true
  | grouped _ groups => complete groups

/-- Refuses a rule that is not well formed, on behalf of a gateway. -/
def validate (element : String) (r : Rule) : Except DefinitionError Unit :=
  if r.wellFormed then .ok () else .error (.emptyGroup element)

theorem validate_eq_ok_iff {element : String} {r : Rule} :
    r.validate element = .ok () ↔ r.wellFormed = true := by
  unfold validate
  split <;> simp_all

theorem complete_iff {groups : List Group} :
    complete groups = true ↔ groups ≠ [] ∧ ∀ g ∈ groups, g.conditions ≠ [] := by
  simp [complete]

def isGroup : Rule → Bool
  | single _ => false
  | grouped _ _ => true

def conditions : Rule → List Condition
  | single c => [c]
  | grouped _ groups => groups.flatMap Group.conditions

/-- The fields of all conditions, each once, in ascending order. -/
def fields (r : Rule) : List String :=
  (Entries.sort (r.conditions.map (fun c => (c.field, ())))).map Prod.fst

def equal : Rule → Rule → Bool
  | single c, single d => c.equal d
  | grouped c g, grouped d h => c = d && equalLists Group.equal g h
  | _, _ => false

def hashed : Rule → Rule
  | single c => single c.hashed
  | grouped c g => grouped c (g.map Group.hashed)

end Rule

end Workflow
