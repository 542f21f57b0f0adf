import Workflow.Wire.Draft
import Workflow.Json.Record

/-!
Reading the shape of a process from a tree. Members that are not asked for do not matter; inside an
element they must still be readable.
-/

namespace Workflow

open Json (Tree Record)

def DraftCondition.ofTree? (t : Tree) : Option DraftCondition := do
  let r ← Record.ofTree? ["fieldName", "operator", "comparativeValue"] [] t
  return {
    field := ← r.required "fieldName" Tree.text?
    operator := ← r.required "operator" Tree.text?
    literal := ← r.withDefault "comparativeValue" .null Tree.value? }

def DraftGroup.ofTree? (t : Tree) : Option DraftGroup := do
  let r ← Record.ofTree? ["groupOperator", "conditions"] [] t
  return {
    operator := ← r.required "groupOperator" Tree.text?
    conditions := ← r.withDefault "conditions" [] (Tree.list? DraftCondition.ofTree?) }

def DraftRule.ofTree? (t : Tree) : Option DraftRule := do
  let r ← Record.ofTree?
    ["isGroup", "groupCombinationOperator", "conditionGroups", "condition"] [] t
  return {
    isGroup := ← r.optional "isGroup" (Tree.nullable? Tree.bool?)
    combination := ← r.optional "groupCombinationOperator" (Tree.nullable? Tree.text?)
    groups := ← r.optional "conditionGroups" (Tree.nullable? (Tree.list? DraftGroup.ofTree?))
    condition := ← r.optional "condition" (Tree.nullable? DraftCondition.ofTree?) }

def QueryParameter.ofTree? (t : Tree) : Option QueryParameter := do
  let r ← Record.ofTree? ["modelField", "paramName"] [] t
  return {
    modelField := ← r.required "modelField" Tree.text?
    parameter := ← r.required "paramName" Tree.text? }

def Request.ofTree? (t : Tree) : Option Request := do
  let r ← Record.ofTree? ["url", "method", "queryParams", "body"] [] t
  return {
    url := ← r.required "url" Tree.text?
    method := ← r.required "method" Tree.text?
    queryParameters := ← r.withDefault "queryParams" [] (Tree.list? QueryParameter.ofTree?)
    body := ← r.withDefault "body" [] (Tree.list? Tree.text?) }

namespace DraftElement

def taskMembers : List String :=
  ["name", "label", "elementType", "start", "end", "block", "events", "actors", "next", "request",
    "modelPatchField"]

/-- A payload that is left out is null. -/
def payload? (r : Record) (name : String) : Option Payload :=
  (r.withDefault name .null Tree.value?).map Payload.ofJson

def taskOfTree? (t : Tree) : Option DraftElement := do
  let r ← Record.ofTree? taskMembers [("modelPatchFields", "modelPatchField")] t
  let name ← r.required "name" Tree.text?
  let label ← r.withDefault "label" "" Tree.text?
  return .task name label {
    elementType := ← r.withDefault "elementType" "" Tree.text?
    isStart := ← r.withDefault "start" false Tree.bool?
    isEnd := ← r.withDefault "end" false Tree.bool?
    block := ← r.withDefault "block" false Tree.bool?
    next := ← r.withDefault "next" none (Tree.nullable? Tree.text?)
    events := ← payload? r "events"
    actors := ← payload? r "actors"
    request := ← r.withDefault "request" none (Tree.nullable? Request.ofTree?)
    modelPatchFields := ← r.withDefault "modelPatchField" [] (Tree.list? Tree.text?) }

def gatewayMembers : List String :=
  ["name", "label", "elementType", "gatewayCondition", "nextIsTrue", "nextIsFalse"]

def gatewayOfTree? (t : Tree) : Option DraftElement := do
  let r ← Record.ofTree? gatewayMembers [] t
  return .gateway {
    name := ← r.required "name" Tree.text?
    label := ← r.withDefault "label" "" Tree.text?
    elementType := ← r.withDefault "elementType" "" Tree.text?
    rule := ← r.required "gatewayCondition" DraftRule.ofTree?
    nextIfTrue := ← r.withDefault "nextIsTrue" none (Tree.nullable? Tree.text?)
    nextIfFalse := ← r.withDefault "nextIsFalse" none (Tree.nullable? Tree.text?) }

/-- The kind of an element, and the tree without it: the only member called `type` of an object, or
the first item of an array. -/
def tagged? : Tree → Option (String × Tree)
  | .object ms =>
    match ms.filter (fun m => m.1 = "type") with
    | [(_, .text tag)] => some (tag, .object (ms.filter (fun m => m.1 ≠ "type")))
    | _ => none
  | .array (.text tag :: ts) => some (tag, .array ts)
  | _ => none

def ofTree? (t : Tree) : Option DraftElement :=
  if t.readable then
    match tagged? t with
    | some ("task", t) => taskOfTree? t
    | some ("gateway", t) => gatewayOfTree? t
    | _ => none
  else none

end DraftElement

namespace Draft

def ofTree? (t : Tree) : Option Draft := do
  let r ← Record.ofTree? ["name", "label", "elements"] [] t
  return {
    name := ← r.required "name" Tree.text?
    label := ← r.withDefault "label" "" Tree.text?
    elements := ← r.required "elements" (Tree.list? DraftElement.ofTree?) }

end Draft

end Workflow
