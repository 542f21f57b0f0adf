import Mathlib.Data.List.Forall2
import Mathlib.Tactic.MkIffOfInductiveProp
import Workflow.Wire.Draft
import Workflow.Json.Record

/-! The shape of a process, said about the tree of its text. Members are looked up in it: in an
object by their names, in an array by their places. What is left out is null or empty. -/

namespace Workflow

open Json (Tree Record)

namespace Json.Tree

/-- The value that a tree spells. Its members stand in order, and of those with one name the last
counts. -/
inductive GivesValue : Tree → Json → Prop
  | null : GivesValue .null .null
  | bool (b : Bool) : GivesValue (.bool b) (.bool b)
  | number (n : JsonNumber) : GivesValue (.number n) (.number n)
  | text (s : String) : GivesValue (.text s) (.text s)
  | array {ts : List Tree} {f : Tree → Json} (h : ∀ t ∈ ts, GivesValue t (f t)) :
      GivesValue (.array ts) (.array (ts.map f))
  | object {ms : List (String × Tree)} {f : Tree → Json} (h : ∀ m ∈ ms, GivesValue m.2 (f m.2)) :
      GivesValue (.object ms) (.object (Entries.sort (ms.map fun m => (m.1, f m.2))))

/-- No part of the tree is without a value. -/
def Readable (t : Tree) : Prop := ∃ v, t.GivesValue v

/-- The names that a member goes by. -/
def goesBy (k : String) : List String :=
  if k = "modelPatchField" then [k, "modelPatchFields"] else [k]

/-- What a record of the members `names` has under one of them. -/
def at? (t : Tree) (names : List String) (k : String) : Option Tree :=
  match t with
  | object ms => (ms.find? (·.1 ∈ goesBy k)).map Prod.snd
  | array ts => ts[names.idxOf k]?
  | _ => none

/-- The same, with what stands for a member that is left out. -/
def given (t : Tree) (names : List String) (k : String) (default : Tree) : Tree :=
  (t.at? names k).getD default

/-- An object that has no member twice, or an array of no more items than there are members. -/
def IsRecord (t : Tree) (names : List String) : Prop :=
  match t with
  | object ms => ∀ k ∈ names, ms.countP (·.1 ∈ goesBy k) ≤ 1
  | array ts => ts.length ≤ names.length
  | _ => False

/-- Null stands for nothing. -/
def OrNull {α : Type} (R : Tree → α → Prop) (t : Tree) : Option α → Prop
  | none => t = .null
  | some a => R t a

/-- An array of as many items, each of which stands for one. -/
def ListOf {α : Type} (R : Tree → α → Prop) (t : Tree) (l : List α) : Prop :=
  ∃ ts, t = .array ts ∧ List.Forall₂ R ts l

def GivesText (t : Tree) (s : String) : Prop := t = .text s

def GivesBool (t : Tree) (b : Bool) : Prop := t = .bool b

def conditionFields : List String := ["fieldName", "operator", "comparativeValue"]

@[mk_iff]
structure GivesCondition (t : Tree) (d : DraftCondition) : Prop where
  record : t.IsRecord conditionFields
  field : t.at? conditionFields "fieldName" = some (.text d.field)
  operator : t.at? conditionFields "operator" = some (.text d.operator)
  literal : (t.given conditionFields "comparativeValue" .null).GivesValue d.literal

def groupFields : List String := ["groupOperator", "conditions"]

@[mk_iff]
structure GivesGroup (t : Tree) (d : DraftGroup) : Prop where
  record : t.IsRecord groupFields
  operator : t.at? groupFields "groupOperator" = some (.text d.operator)
  conditions : ListOf GivesCondition (t.given groupFields "conditions" (.array [])) d.conditions

def ruleFields : List String :=
  ["isGroup", "groupCombinationOperator", "conditionGroups", "condition"]

/-- In an object what is left out is null; in an array nothing may be left out. -/
@[mk_iff]
structure GivesRule (t : Tree) (d : DraftRule) : Prop where
  record : t.IsRecord ruleFields
  complete : ∀ ts, t = .array ts → ts.length = ruleFields.length
  isGroup : OrNull GivesBool (t.given ruleFields "isGroup" .null) d.isGroup
  combination :
    OrNull GivesText (t.given ruleFields "groupCombinationOperator" .null) d.combination
  groups : OrNull (ListOf GivesGroup) (t.given ruleFields "conditionGroups" .null) d.groups
  condition : OrNull GivesCondition (t.given ruleFields "condition" .null) d.condition

def queryFields : List String := ["modelField", "paramName"]

@[mk_iff]
structure GivesQueryParameter (t : Tree) (q : QueryParameter) : Prop where
  record : t.IsRecord queryFields
  modelField : t.at? queryFields "modelField" = some (.text q.modelField)
  parameter : t.at? queryFields "paramName" = some (.text q.parameter)

def requestFields : List String := ["url", "method", "queryParams", "body"]

@[mk_iff]
structure GivesRequest (t : Tree) (r : Request) : Prop where
  record : t.IsRecord requestFields
  url : t.at? requestFields "url" = some (.text r.url)
  method : t.at? requestFields "method" = some (.text r.method)
  queryParameters : ListOf GivesQueryParameter (t.given requestFields "queryParams" (.array []))
    r.queryParameters
  body : ListOf GivesText (t.given requestFields "body" (.array [])) r.body

def taskFields : List String :=
  ["type", "name", "label", "elementType", "start", "end", "block", "events", "actors", "next",
    "request", "modelPatchField"]

/-- The text of the value that the record has under the name, or of null. -/
def GivesPayload (t : Tree) (k : String) (p : Payload) : Prop :=
  ∃ v, (t.given taskFields k .null).GivesValue v ∧ p = .ofJson v

@[mk_iff]
structure GivesTask (t : Tree) (name label : String) (k : Task) : Prop where
  record : t.IsRecord taskFields
  tag : t.at? taskFields "type" = some (.text "task")
  name : t.at? taskFields "name" = some (.text name)
  label : (t.given taskFields "label" (.text "")).GivesText label
  elementType : (t.given taskFields "elementType" (.text "")).GivesText k.elementType
  isStart : (t.given taskFields "start" (.bool false)).GivesBool k.isStart
  isEnd : (t.given taskFields "end" (.bool false)).GivesBool k.isEnd
  block : (t.given taskFields "block" (.bool false)).GivesBool k.block
  next : OrNull GivesText (t.given taskFields "next" .null) k.next
  events : t.GivesPayload "events" k.events
  actors : t.GivesPayload "actors" k.actors
  request : OrNull GivesRequest (t.given taskFields "request" .null) k.request
  modelPatchFields :
    ListOf GivesText (t.given taskFields "modelPatchField" (.array [])) k.modelPatchFields

def gatewayFields : List String :=
  ["type", "name", "label", "elementType", "gatewayCondition", "nextIsTrue", "nextIsFalse"]

@[mk_iff]
structure GivesGateway (t : Tree) (g : DraftGateway) : Prop where
  record : t.IsRecord gatewayFields
  tag : t.at? gatewayFields "type" = some (.text "gateway")
  name : t.at? gatewayFields "name" = some (.text g.name)
  label : (t.given gatewayFields "label" (.text "")).GivesText g.label
  elementType : (t.given gatewayFields "elementType" (.text "")).GivesText g.elementType
  rule : ∃ u, t.at? gatewayFields "gatewayCondition" = some u ∧ u.GivesRule g.rule
  nextIfTrue : OrNull GivesText (t.given gatewayFields "nextIsTrue" .null) g.nextIfTrue
  nextIfFalse : OrNull GivesText (t.given gatewayFields "nextIsFalse" .null) g.nextIfFalse

/-- An element is a task or a gateway, and readable in all that it has. -/
inductive GivesElement (t : Tree) : DraftElement → Prop
  | task {name label : String} {k : Task} (readable : t.Readable) (h : t.GivesTask name label k) :
      GivesElement t (.task name label k)
  | gateway {g : DraftGateway} (readable : t.Readable) (h : t.GivesGateway g) :
      GivesElement t (.gateway g)

def processFields : List String := ["name", "label", "elements"]

@[mk_iff]
structure Gives (t : Tree) (d : Draft) : Prop where
  record : t.IsRecord processFields
  name : t.at? processFields "name" = some (.text d.name)
  label : (t.given processFields "label" (.text "")).GivesText d.label
  elements : ∃ u, t.at? processFields "elements" = some u ∧ ListOf GivesElement u d.elements

/-- The elements of a process, in the order of its text. -/
def elements (t : Tree) : List Tree :=
  match t.at? processFields "elements" with
  | some (array ts) => ts
  | _ => []

theorem Gives.forall₂_elements {t : Tree} {d : Draft} (h : t.Gives d) :
    List.Forall₂ GivesElement t.elements d.elements := by
  obtain ⟨_, hu, ts, rfl, hts⟩ := h.elements
  simpa [Tree.elements, hu] using hts

end Json.Tree

end Workflow
