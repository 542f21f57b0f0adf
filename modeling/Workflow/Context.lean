import Workflow.Value
import Workflow.Error
import Workflow.Json.Parser

/-!
The data that a decision is made on: a finite map from fields to values.
-/

namespace Workflow

/-- The value of a field, if it has one. -/
abbrev FieldLookup := String → Option Value

abbrev Context := Keyed Value

namespace Context

def lookup (c : Context) : FieldLookup := c.find?

/-- The same fields, with equal values. -/
def equal (a b : Context) : Bool :=
  equalEntries a.entries b.entries
where
  equalEntries : List (String × Value) → List (String × Value) → Bool
    | [], [] => true
    | (k, v) :: l, (k', v') :: m => k = k' && v.equal v' && equalEntries l m
    | _, _ => false

/-- Members that are null give no entry. -/
def ofMembers : List (String × Json) → Except ContextError (List (String × Value))
  | [] => .ok []
  | (_, .null) :: r => ofMembers r
  | (k, v) :: r =>
    match Value.ofJson? v with
    | none => .error (.unsupportedValue k)
    | some v => do return (k, v) :: (← ofMembers r)

def ofJson : Json → Except ContextError Context
  | .object ms => do return .ofList (← ofMembers ms)
  | _ => .error .notAnObject

def ofText (s : String) : Except ContextError Context :=
  match Json.parse? s with
  | none => .error (.unparsable "not a JSON text")
  | some v => ofJson v

def toJson (c : Context) : Json := .object (c.entries.map (fun e => (e.1, e.2.toJson)))

end Context

end Workflow
