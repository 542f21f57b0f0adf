import Workflow.Condition

/-!
Records of how a rule was evaluated, and their text.
-/

namespace Workflow

inductive Trace where
  /-- Without `found` if the field has no value. -/
  | comparison (field : String) (comparison : Comparison) (found : Option Value) (expected : Value)
      (outcome : Bool)
  /-- The items that were evaluated, and the number of those that were not. -/
  | group (connective : Connective) (children : List Trace) (skipped : Nat) (outcome : Bool)
deriving Inhabited

namespace Trace

def outcome : Trace → Bool
  | comparison _ _ _ _ o => o
  | group _ _ _ o => o

mutual

/-- The number of comparisons made. -/
def comparisons : Trace → Nat
  | comparison .. => 1
  | group _ ts _ _ => comparisonsOf ts

def comparisonsOf : List Trace → Nat
  | [] => 0
  | t :: r => t.comparisons + comparisonsOf r

end

mutual

/-- The fields compared and the values found, from left to right. -/
def leaves : Trace → List (String × Option Value)
  | comparison k _ found _ _ => [(k, found)]
  | group _ ts _ _ => leavesOf ts

def leavesOf : List Trace → List (String × Option Value)
  | [] => []
  | t :: r => t.leaves ++ leavesOf r

end

def showFound : Option Value → List Char
  | some v => v.print
  | none => "undefined".toList

mutual

/-- Inside another group, a group of several items stands in parentheses. -/
def print (outermost : Bool) : Trace → List Char
  | comparison field op found expected _ =>
    '$' :: field.toList ++ " (was ".toList ++ showFound found ++ ") ".toList ++ op.symbol.toList ++
      ' ' :: expected.print
  | group c ts _ _ =>
    let body := printItems c ts
    if !outermost && 1 < ts.length then '(' :: body ++ [')'] else body

/-- Items, separated by the name of their connective. -/
def printItems (c : Connective) : List Trace → List Char
  | [] => []
  | [t] => print false t
  | t :: r => print false t ++ ' ' :: c.name.toList ++ ' ' :: printItems c r

end

/-- The reason for the outcome in one line. -/
def render (t : Trace) : String := String.ofList (t.print true)

end Trace

end Workflow
