import Workflow.Proofs.Artifact
import Workflow.Proofs.Loading
import Workflow.Proofs.TextLimits

/-! Payloads. A value is read back from the text that carries it, and the payloads of a process stand
for what the text of the process has there, also after the process has been an artifact. -/

namespace Workflow

open Json (Tree Record)

namespace Json

/-- The text of a value is never empty. -/
theorem render_ne_empty (v : Json) : v.render ≠ "" := by
  obtain ⟨c, r, hr, -⟩ := exists_head_print v
  intro h
  have hlist := congrArg String.toList h
  rw [render, String.toList_ofList, hr] at hlist
  cases hlist

namespace Tree

variable {d : Nat} {t u : Tree}

theorem Within.of_at? (h : t.Within d) {names : List String} {k : String}
    (hu : t.at? names k = some u) : u.Within d := by
  cases h with
  | object h =>
    obtain ⟨m, hm, rfl⟩ := Option.map_eq_some_iff.1 hu
    exact (h m (List.mem_of_find?_eq_some hm)).mono (Nat.le_succ _)
  | array h => exact (h u (List.mem_of_getElem? hu)).mono (Nat.le_succ _)
  | _ => cases hu

theorem Within.given (h : t.Within d) (names : List String) (k : String) :
    (t.given names k .null).Within d := by
  unfold Tree.given
  cases hu : t.at? names k with
  | none => exact .null
  | some u => exact h.of_at? hu

theorem Within.of_mem_elements (h : t.Within d) (hu : u ∈ t.elements) : u.Within d := by
  unfold elements at hu
  split at hu
  · rename_i ts hts
    cases h.of_at? hts with
    | array h => exact (h u hu).mono (Nat.le_succ _)
  · cases hu

end Tree

end Json

namespace Payload

/-- A value is read back from the text that carries it. -/
theorem value?_ofJson {v : Json} (hv : v.Within Json.Parser.maxDepth) (hfloats : v.FloatsReadBack) :
    (ofJson v).value? = some v := by
  rw [value?, ofJson, if_neg v.render_ne_empty]
  exact Json.parse?_render_of_within hv hfloats

/-- The payload stands for what the element has under the name, or for null, if that has floating
numbers only that are read back. -/
def Keeps (p : Payload) (t : Tree) (name : String) : Prop :=
  ∃ v, (t.given Tree.taskFields name .null).GivesValue v ∧ (v.FloatsReadBack → p.value? = some v)

theorem keeps_of_gives {t : Tree} (ht : t.Within Json.Parser.maxDepth) {name : String} {p : Payload}
    (h : t.GivesPayload name p) : p.Keeps t name := by
  obtain ⟨v, hv, rfl⟩ := h
  have hwithin := (ht.given Tree.taskFields name).value ((Tree.value?_reads _ v).2 hv)
  exact ⟨v, hv, value?_ofJson hwithin⟩

/-- The payloads of an element that is a task. -/
def KeptBy (t : Tree) (e : Element) : Prop :=
  ∀ k, e.kind = .task k → k.events.Keeps t "events" ∧ k.actors.Keeps t "actors"

theorem keptBy_of_gives {t : Tree} (ht : t.Within Json.Parser.maxDepth) {d : DraftElement}
    (hd : t.GivesElement d) {e : Element} (he : d.Means e) : KeptBy t e := by
  intro k hk
  cases he with
  | task =>
    cases hk
    cases hd with
    | task _ h => exact ⟨keeps_of_gives ht h.events, keeps_of_gives ht h.actors⟩
  | gateway => cases hk

/-- A value that is nested at most 127 deep is read back from the text that carries it, if its floating
numbers are read back from theirs; so different values have different texts. The payloads of a process
are what its text has there, and stay so when the process becomes an artifact and is read again. -/
theorem values_survive :
    (∀ v : Json, v.Within Json.Parser.maxDepth → v.FloatsReadBack →
      (ofJson v).value? = some v ∧ (ofJson v).value?.map ofJson = some (ofJson v) ∧
      ∀ w : Json, w.Within Json.Parser.maxDepth → w.FloatsReadBack → w ≠ v →
        (ofJson w).text ≠ (ofJson v).text) ∧
    ∀ s p, Definition.ofText s = .ok p →
      ∃ t, Tree.parse? s = some t ∧ List.Forall₂ KeptBy t.elements p.elements ∧
        ∀ a, Artifact.ofDefinition p = .ok a → p.Sized →
          ∃ b, Artifact.ofBytes a.toBytes = .ok b ∧
            List.Forall₂ KeptBy t.elements b.definition.elements := by
  refine ⟨fun v hv hfloats => ?_, fun s p h => ?_⟩
  · have hread := value?_ofJson hv hfloats
    refine ⟨hread, by rw [hread, Option.map_some], fun w hw hwfloats hne htext => hne ?_⟩
    have hother := value?_ofJson hw hwfloats
    rw [value?, htext, ← value?, hread] at hother
    exact (Option.some.inj hother).symm
  · obtain ⟨t, d, ht, hd, hp⟩ := Definition.exists_gives_of_ofText h
    have hwithin := Tree.within_of_parse? ht
    have hkept : List.Forall₂ KeptBy t.elements p.elements :=
      forall₂_of_forall₂ hd.forall₂_elements hp.elements fun u hu _ _ hgives hmeans =>
        keptBy_of_gives (hwithin.of_mem_elements hu) hgives hmeans
    refine ⟨t, ht, hkept, fun a ha hsized => ⟨a, Artifact.ofBytes_toBytes ha hsized, ?_⟩⟩
    obtain ⟨rfl, -⟩ := Artifact.ofDefinition_eq_ok_iff.1 ha
    exact hkept

/-- A floating number, and a text with a control character. -/
def measured : Json := .array [.number (.float .half), .text "\x01"]

theorem measured_within : measured.Within Json.Parser.maxDepth := by
  refine .array ?_
  simp only [List.forall_mem_cons]
  exact ⟨.float _, .text _, nofun⟩

theorem measured_readsBack : measured.FloatsReadBack := by
  intro x hx
  cases hx with
  | item hv hx =>
    simp only [List.mem_cons, List.not_mem_nil, or_false] at hv
    rcases hv with rfl | rfl
    · cases hx
      exact Binary64.half_readsBack
    · cases hx

/-- A process of one task with events and without actors. -/
def reminderText : String :=
  "\x7b\"name\": \"p\", \"elements\": [
    \x7b\"type\": \"task\", \"name\": \"remind\", \"start\": true, \"end\": true,
      \"events\": \x7b\"b\": [\"\\u0001\"], \"a\": -5\x7d\x7d]\x7d"

def reminderTree : Tree :=
  .object [("name", .text "p"), ("elements", .array [.object [("type", .text "task"),
    ("name", .text "remind"), ("start", .bool true), ("end", .bool true),
    ("events", .object [("b", .array [.text "\x01"]), ("a", .number (.whole (-5)))])]])]

def reminderEvents : Json :=
  .object [("a", .number (.whole (-5))), ("b", .array [.text "\x01"])]

theorem reminderEvents_readsBack : reminderEvents.FloatsReadBack := by
  intro x hx
  cases hx with
  | member hm hx =>
    simp only [List.mem_cons, List.not_mem_nil, or_false] at hm
    rcases hm with rfl | rfl
    · cases hx
    · cases hx with
      | item hv hx =>
        obtain rfl := List.mem_singleton.1 hv
        cases hx

def reminderTask : Task where
  elementType := ""
  isStart := true
  isEnd := true
  block := false
  next := none
  events := .ofJson reminderEvents
  actors := .ofJson .null
  request := none
  modelPatchFields := []

def reminderDraft : Draft := ⟨"p", "", [.task "remind" "" reminderTask]⟩

def reminder : Definition := ⟨"p", "", [⟨"remind", "", .task reminderTask⟩]⟩

set_option maxRecDepth 2000 in
theorem values_survive_of_reminder :
    (ofJson measured).value? = some measured ∧ (ofJson .null).text ≠ (ofJson measured).text ∧
    Definition.ofText reminderText = .ok reminder ∧
    reminderTask.events.value? = some reminderEvents ∧
    ∃ b, Artifact.ofBytes (Artifact.toBytes ⟨reminder⟩) = .ok b ∧
      List.Forall₂ KeptBy reminderTree.elements b.definition.elements := by
  obtain ⟨hread, -, hdifferent⟩ := values_survive.1 measured measured_within measured_readsBack
  have htree : Tree.parse? reminderText = some reminderTree := (Tree.parse?_ofList _).trans rfl
  have htext : Definition.ofText reminderText = .ok reminder := by
    rw [Definition.ofText_of_gives htree ((Draft.ofTree?_reads _ reminderDraft).1 rfl)]
    rfl
  obtain ⟨t, ht, hkept, hartifact⟩ := values_survive.2 reminderText reminder htext
  obtain rfl : reminderTree = t := Option.some.inj (htree.symm.trans ht)
  have hnull : Json.null.FloatsReadBack := by
    intro x hx
    cases hx
  have hne : Json.null ≠ measured := by
    intro h
    cases h
  refine ⟨hread, hdifferent .null .null hnull hne, htext, ?_,
    hartifact ⟨reminder⟩ rfl (by decide)⟩
  obtain ⟨⟨v, hv, hevents⟩, -⟩ := (List.forall₂_cons.1 hkept).1 reminderTask rfl
  obtain rfl : reminderEvents = v := Option.some.inj ((Tree.value?_reads _ v).2 hv)
  exact hevents reminderEvents_readsBack

end Payload

end Workflow
