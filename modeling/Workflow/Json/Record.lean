import Workflow.Json.Basic

/-!
Reading typed data from a tree. A record is an object, whose members may come in any order and
among others, or an array of its members in their fixed order.
-/

namespace Workflow.Json

/-- The members of a record, each at most once. -/
structure Record where
  byPosition : Bool
  members : List (String × Tree)

namespace Record

/-- The name under which a record of `names` keeps a member called `k`, if it keeps it. -/
def keptAs (names : List String) (aliases : List (String × String)) (k : String) : Option String :=
  if k ∈ names then some k else aliases.lookup k

def ofTree? (names : List String) (aliases : List (String × String)) : Tree → Option Record
  | .object ms =>
    let kept := ms.filterMap (fun m => (keptAs names aliases m.1).map (·, m.2))
    if (kept.map Prod.fst).Nodup then some ⟨false, kept⟩ else none
  | .array ts => if ts.length ≤ names.length then some ⟨true, names.zip ts⟩ else none
  | _ => none

def find? (r : Record) (name : String) : Option Tree := Entries.find? name r.members

/-- A member that must be there. -/
def required (r : Record) (name : String) (read : Tree → Option α) : Option α :=
  (r.find? name).bind read

/-- A member that may be left out. -/
def withDefault (r : Record) (name : String) (default : α) (read : Tree → Option α) : Option α :=
  match r.find? name with
  | some t => read t
  | none => some default

/-- A member that may be null, and in an object left out. -/
def optional (r : Record) (name : String) (read : Tree → Option (Option α)) : Option (Option α) :=
  match r.find? name with
  | some t => read t
  | none => if r.byPosition then none else some none

end Record

namespace Tree

def text? : Tree → Option String
  | text s => some s
  | _ => none

def bool? : Tree → Option Bool
  | bool b => some b
  | _ => none

def float? : Tree → Option Binary64
  | number n => some n.toBinary64
  | _ => none

def list? (read : Tree → Option α) : Tree → Option (List α)
  | array ts => ts.mapM read
  | _ => none

def nullable? (read : Tree → Option α) : Tree → Option (Option α)
  | null => some none
  | t => (read t).map some

/-- An alternative is named by a text, or by the only member of an object that holds its content. -/
def alternative? : Tree → Option (String × Option Tree)
  | text s => some (s, none)
  | object [(k, t)] => some (k, some t)
  | _ => none

end Tree

end Workflow.Json
