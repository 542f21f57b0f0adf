import Workflow.Artifact.Codec
import Workflow.Definition.Index

/-!
Artifacts: processes as bytes. A version comes first, then the members of every record in order.
What is read must have the one version that there is, and an index.
-/

namespace Workflow

open Codec

def Value.codec : Codec Value where
  encode
    | number x => shortNatural.encode 0 ++ Codec.number.encode x
    | boolean b => shortNatural.encode 1 ++ flag.encode b
    | text s => shortNatural.encode 2 ++ Codec.text.encode s
  decode bs := do
    let (i, bs) ← shortNatural.decode bs
    match i with
    | 0 => (Codec.number.decode bs).map (fun x => (number x.1, x.2))
    | 1 => (flag.decode bs).map (fun x => (boolean x.1, x.2))
    | 2 => (Codec.text.decode bs).map (fun x => (text x.1, x.2))
    | _ => none
  fits
    | number x => Codec.number.fits x
    | boolean b => flag.fits b
    | text s => Codec.text.fits s

def Condition.codec : Codec Condition :=
  (Codec.text.both ((oneOf Comparison.all).both Value.codec)).via
    (fun (k, op, v) => ⟨k, op, v⟩) (fun c => (c.field, c.comparison, c.literal))

def Connective.codec : Codec Connective := oneOf all

def Group.codec : Codec Group :=
  (Connective.codec.both (list Condition.codec)).via
    (fun (c, l) => ⟨c, l⟩) (fun g => (g.connective, g.conditions))

def Rule.codec : Codec Rule :=
  (either Condition.codec (Connective.codec.both (list Group.codec))).via
    (fun | .inl c => single c | .inr (c, l) => grouped c l)
    (fun | single c => .inl c | grouped c l => .inr (c, l))

def Payload.codec : Codec Payload := Codec.text.via Payload.mk Payload.text

def QueryParameter.codec : Codec QueryParameter :=
  (Codec.text.both Codec.text).via (fun (f, p) => ⟨f, p⟩) (fun q => (q.modelField, q.parameter))

def Request.codec : Codec Request :=
  (Codec.text.both (Codec.text.both ((list QueryParameter.codec).both (list Codec.text)))).via
    (fun (u, m, q, b) => ⟨u, m, q, b⟩) (fun r => (r.url, r.method, r.queryParameters, r.body))

def Task.codec : Codec Task :=
  (Codec.text.both (flag.both (flag.both (flag.both ((option Codec.text).both (Payload.codec.both
    (Payload.codec.both ((option Request.codec).both (list Codec.text))))))))).via
    (fun (ty, st, en, bl, nx, ev, ac, rq, fs) => ⟨ty, st, en, bl, nx, ev, ac, rq, fs⟩)
    (fun t => (t.elementType, t.isStart, t.isEnd, t.block, t.next, t.events, t.actors, t.request,
      t.modelPatchFields))

def Gateway.codec : Codec Gateway :=
  (Codec.text.both (Rule.codec.both ((option Codec.text).both (option Codec.text)))).via
    (fun (ty, r, t, f) => ⟨ty, r, t, f⟩)
    (fun g => (g.elementType, g.rule, g.nextIfTrue, g.nextIfFalse))

def ElementKind.codec : Codec ElementKind :=
  (either Task.codec Gateway.codec).via
    (fun | .inl t => task t | .inr g => gateway g)
    (fun | task t => .inl t | gateway g => .inr g)

def Element.codec : Codec Element :=
  (Codec.text.both (Codec.text.both ElementKind.codec)).via
    (fun (n, l, k) => ⟨n, l, k⟩) (fun e => (e.name, e.label, e.kind))

def Definition.codec : Codec Definition :=
  (Codec.text.both (Codec.text.both (list Element.codec))).via
    (fun (n, l, es) => ⟨n, l, es⟩) (fun p => (p.name, p.label, p.elements))

/-- A process that has an index. -/
structure Artifact where
  definition : Definition

namespace Artifact

/-- The only version. -/
def version : Nat := 1

/-- A version of any kind, and a process. -/
def versioned : Codec (Nat × Definition) := shortNatural.both Definition.codec

/-- Refuses a process that has no index. -/
def ofDefinition (p : Definition) : Except ArtifactError Artifact :=
  match Index.build p with
  | .error e => .error (.definition e)
  | .ok _ => .ok ⟨p⟩

def toBytes (a : Artifact) : Bytes := versioned.encode (version, a.definition)

/-- All is decoded before the version is looked at, and the version before the process. Bytes that
follow are ignored. -/
def ofBytes (bs : Bytes) : Except ArtifactError Artifact :=
  match versioned.decode bs with
  | none => .error .malformed
  | some ((v, p), _) =>
    if v = version then ofDefinition p else .error (.unsupportedVersion v version)

end Artifact

end Workflow
