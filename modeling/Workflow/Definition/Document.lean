import Workflow.Definition.Basic
import Workflow.Json.Record

/-!
Processes as JSON documents of their own structure: each record an object of its members, each
alternative an object of one member. Reading one checks the shape and nothing else.
-/

namespace Workflow

open Json (Tree Record)

def Value.toDocument : Value → Json
  | number x => .object [("Number", .ofBinary64 x)]
  | boolean b => .object [("Bool", .bool b)]
  | text s => .object [("Str", .text s)]

def Condition.toDocument (c : Condition) : Json :=
  .object [("field_name", .text c.field), ("operator", .text c.comparison.title),
    ("comparative_value", c.literal.toDocument)]

def Group.toDocument (g : Group) : Json :=
  .object [("operator", .text g.connective.title),
    ("conditions", .ofList Condition.toDocument g.conditions)]

def Rule.toDocument : Rule → Json
  | single c => .object [("Single", c.toDocument)]
  | grouped c groups =>
    .object [("Grouped", .object [("combination", .text c.title),
      ("groups", .ofList Group.toDocument groups)])]

def QueryParameter.toDocument (q : QueryParameter) : Json :=
  .object [("model_field", .text q.modelField), ("param_name", .text q.parameter)]

def Request.toDocument (r : Request) : Json :=
  .object [("url", .text r.url), ("method", .text r.method),
    ("query_params", .ofList QueryParameter.toDocument r.queryParameters),
    ("body", .ofList Json.text r.body)]

def Task.toDocument (t : Task) : Json :=
  .object [("element_type", .text t.elementType), ("is_start", .bool t.isStart),
    ("is_end", .bool t.isEnd), ("block", .bool t.block), ("next", .ofOption Json.text t.next),
    ("events", .text t.events.text), ("actors", .text t.actors.text),
    ("request", .ofOption Request.toDocument t.request),
    ("model_patch_fields", .ofList Json.text t.modelPatchFields)]

def Gateway.toDocument (g : Gateway) : Json :=
  .object [("element_type", .text g.elementType), ("condition", g.rule.toDocument),
    ("next_if_true", .ofOption Json.text g.nextIfTrue),
    ("next_if_false", .ofOption Json.text g.nextIfFalse)]

def ElementKind.toDocument : ElementKind → Json
  | task t => .object [("Task", t.toDocument)]
  | gateway g => .object [("Gateway", g.toDocument)]

def Element.toDocument (e : Element) : Json :=
  .object [("name", .text e.name), ("label", .text e.label), ("kind", e.kind.toDocument)]

def Definition.toDocument (p : Definition) : Json :=
  .object [("name", .text p.name), ("label", .text p.label),
    ("elements", .ofList Element.toDocument p.elements)]

/-- The content of an alternative that has one. -/
def content? (read : Tree → Option α) : Option Tree → Option α
  | some t => read t
  | none => none

/-- An alternative without content may also be written with null for it. -/
def bare? (a : Option α) : Option Tree → Option α
  | none => a
  | some .null => a
  | some _ => none

def Value.ofDocument? (t : Tree) : Option Value :=
  match t.alternative? with
  | some ("Number", t) => content? (fun t => t.float?.map number) t
  | some ("Bool", t) => content? (fun t => t.bool?.map boolean) t
  | some ("Str", t) => content? (fun t => t.text?.map text) t
  | _ => none

def Comparison.ofDocument? (t : Tree) : Option Comparison :=
  match t.alternative? with
  | some (title, t) => bare? (ofTitle? title) t
  | none => none

def Connective.ofDocument? (t : Tree) : Option Connective :=
  match t.alternative? with
  | some (title, t) => bare? (ofTitle? title) t
  | none => none

def Condition.ofDocument? (t : Tree) : Option Condition := do
  let r ← Record.ofTree? ["field_name", "operator", "comparative_value"] [] t
  return {
    field := ← r.required "field_name" Tree.text?
    comparison := ← r.required "operator" Comparison.ofDocument?
    literal := ← r.required "comparative_value" Value.ofDocument? }

def Group.ofDocument? (t : Tree) : Option Group := do
  let r ← Record.ofTree? ["operator", "conditions"] [] t
  return {
    connective := ← r.required "operator" Connective.ofDocument?
    conditions := ← r.required "conditions" (Tree.list? Condition.ofDocument?) }

def Rule.groupedOfDocument? (t : Tree) : Option Rule := do
  let r ← Record.ofTree? ["combination", "groups"] [] t
  let combination ← r.required "combination" Connective.ofDocument?
  let groups ← r.required "groups" (Tree.list? Group.ofDocument?)
  return grouped combination groups

def Rule.ofDocument? (t : Tree) : Option Rule :=
  match t.alternative? with
  | some ("Single", t) => content? (fun t => (Condition.ofDocument? t).map single) t
  | some ("Grouped", t) => content? groupedOfDocument? t
  | _ => none

def QueryParameter.ofDocument? (t : Tree) : Option QueryParameter := do
  let r ← Record.ofTree? ["model_field", "param_name"] [] t
  return {
    modelField := ← r.required "model_field" Tree.text?
    parameter := ← r.required "param_name" Tree.text? }

def Request.ofDocument? (t : Tree) : Option Request := do
  let r ← Record.ofTree? ["url", "method", "query_params", "body"] [] t
  return {
    url := ← r.required "url" Tree.text?
    method := ← r.required "method" Tree.text?
    queryParameters := ← r.required "query_params" (Tree.list? QueryParameter.ofDocument?)
    body := ← r.required "body" (Tree.list? Tree.text?) }

def Payload.ofDocument? (t : Tree) : Option Payload := t.text?.map Payload.mk

def Task.ofDocument? (t : Tree) : Option Task := do
  let r ← Record.ofTree? ["element_type", "is_start", "is_end", "block", "next", "events", "actors",
    "request", "model_patch_fields"] [] t
  return {
    elementType := ← r.required "element_type" Tree.text?
    isStart := ← r.required "is_start" Tree.bool?
    isEnd := ← r.required "is_end" Tree.bool?
    block := ← r.required "block" Tree.bool?
    next := ← r.optional "next" (Tree.nullable? Tree.text?)
    events := ← r.required "events" Payload.ofDocument?
    actors := ← r.required "actors" Payload.ofDocument?
    request := ← r.optional "request" (Tree.nullable? Request.ofDocument?)
    modelPatchFields := ← r.required "model_patch_fields" (Tree.list? Tree.text?) }

def Gateway.ofDocument? (t : Tree) : Option Gateway := do
  let r ← Record.ofTree? ["element_type", "condition", "next_if_true", "next_if_false"] [] t
  return {
    elementType := ← r.required "element_type" Tree.text?
    rule := ← r.required "condition" Rule.ofDocument?
    nextIfTrue := ← r.optional "next_if_true" (Tree.nullable? Tree.text?)
    nextIfFalse := ← r.optional "next_if_false" (Tree.nullable? Tree.text?) }

def ElementKind.ofDocument? (t : Tree) : Option ElementKind :=
  match t.alternative? with
  | some ("Task", t) => content? (fun t => (Task.ofDocument? t).map task) t
  | some ("Gateway", t) => content? (fun t => (Gateway.ofDocument? t).map gateway) t
  | _ => none

def Element.ofDocument? (t : Tree) : Option Element := do
  let r ← Record.ofTree? ["name", "label", "kind"] [] t
  return {
    name := ← r.required "name" Tree.text?
    label := ← r.required "label" Tree.text?
    kind := ← r.required "kind" ElementKind.ofDocument? }

namespace Definition

def ofDocument? (t : Tree) : Option Definition := do
  let r ← Record.ofTree? ["name", "label", "elements"] [] t
  return {
    name := ← r.required "name" Tree.text?
    label := ← r.required "label" Tree.text?
    elements := ← r.required "elements" (Tree.list? Element.ofDocument?) }

/-- The text of the document. -/
def documentText (p : Definition) : String := p.toDocument.render

def ofDocumentText? (s : String) : Option Definition := (Json.Tree.parse? s).bind ofDocument?

end Definition

end Workflow
