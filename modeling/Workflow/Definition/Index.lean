import Workflow.Definition.Basic

/-!
Positions of elements by name. An index exists only for a process whose names are distinct, whose
links lead to elements and whose rules are well formed.
-/

namespace Workflow

/-- The first of the names that occurred before its place. -/
def firstRepeated (seen : List String) : List String → Option String
  | [] => none
  | n :: r => if n ∈ seen then some n else firstRepeated (n :: seen) r

structure Index where
  positions : Keyed Nat

namespace Index

/-- The first of the names that has no position. -/
def missing? (positions : Keyed Nat) (names : List String) : Option String :=
  names.find? (fun n => (positions.find? n).isNone)

def checkRule (e : Element) : Except DefinitionError Unit :=
  match e.gateway? with
  | some g => g.rule.validate e.name
  | none => .ok ()

def checkLinks (positions : Keyed Nat) (e : Element) : Except DefinitionError Unit :=
  match missing? positions e.successors with
  | some n => .error (.unknownSuccessor n e.name)
  | none => .ok ()

/-- The rule of each element is checked before its links, and all before the next element. -/
def checkElements (positions : Keyed Nat) : List Element → Except DefinitionError Unit
  | [] => .ok ()
  | e :: r => do
    checkRule e
    checkLinks positions e
    checkElements positions r

def build (p : Definition) : Except DefinitionError Index :=
  match firstRepeated [] p.names with
  | some n => .error (.duplicateElement n)
  | none =>
    let positions := Keyed.ofList p.names.zipIdx
    (checkElements positions p.elements).map (fun _ => ⟨positions⟩)

def position (i : Index) (name : String) : Option Nat := i.positions.find? name

/-- The element called `name` of the process that the index was built from. -/
def get (i : Index) (p : Definition) (name : String) : Except EvaluationError Element :=
  match (i.position name).bind (p.elements[·]?) with
  | some e => .ok e
  | none => .error (.unknownElement name)

def size (i : Index) : Nat := i.positions.size

def isEmpty (i : Index) : Bool := i.positions.isEmpty

end Index

end Workflow
