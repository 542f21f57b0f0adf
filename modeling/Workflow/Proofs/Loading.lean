import Workflow.Proofs.Checking
import Workflow.Proofs.Index
import Workflow.Proofs.Reading

/-! Which texts are processes, and what a process keeps of its text: the tree of the text gives a
draft, and the draft means a process or is refused. -/

namespace Workflow

open Json (Tree)

theorem DraftCondition.Refused.ne_unparsable {element reason : String} {d : DraftCondition} :
    ¬ d.Refused element (.unparsable reason) := nofun

theorem DraftGroup.Refused.ne_unparsable {element reason : String} {d : DraftGroup} :
    ¬ d.Refused element (.unparsable reason) := by
  intro h
  cases h with
  | condition _ h =>
    obtain ⟨_, _, _, -, -, h⟩ := h
    exact h.ne_unparsable

theorem DraftRule.Refused.ne_unparsable {element reason : String} {d : DraftRule} :
    ¬ d.Refused element (.unparsable reason) := by
  intro h
  cases h with
  | condition h => exact h.ne_unparsable
  | group h =>
    obtain ⟨_, _, _, -, -, h⟩ := h
    exact h.ne_unparsable

theorem Draft.Refused.ne_unparsable {reason : String} {d : Draft} :
    ¬ d.Refused (.unparsable reason) := by
  rintro ⟨_, _, _, -, -, h⟩
  cases h with
  | gateway h => exact h.ne_unparsable

theorem DraftRule.Means.wellFormed {d : DraftRule} {r : Rule} (h : d.Means r) :
    r.wellFormed = true := by
  cases h with
  | single => rfl
  | grouped nonempty h => exact (Rule.complete_iff_of_means h).2 nonempty

theorem DraftElement.Means.checkRule {d : DraftElement} {e : Element} (h : d.Means e) :
    Index.checkRule e = .ok () := by
  rw [Index.checkRule_eq_ok_iff]
  intro g hg
  cases h with
  | task => cases hg
  | gateway h =>
    cases hg
    exact h.wellFormed

namespace Index

end Index

namespace Definition

theorem ofText_of_gives {s : String} {t : Tree} {d : Draft} (ht : Tree.parse? s = some t)
    (hd : t.Gives d) : ofText s = d.check := by
  rw [ofText, ht, Option.bind_some, (Draft.ofTree?_reads t d).2 hd]

theorem exists_gives_of_ofText {s : String} {p : Definition} (h : ofText s = .ok p) :
    ∃ t d, Tree.parse? s = some t ∧ t.Gives d ∧ d.Means p := by
  unfold ofText at h
  split at h
  · cases h
  · rename_i d hd
    obtain ⟨t, ht, hd⟩ := Option.bind_eq_some_iff.1 hd
    exact ⟨t, d, ht, (Draft.ofTree?_reads t d).1 hd, Draft.check_decides.ok.1 h⟩

/-- A task, and a gateway with one group of one condition. -/
def consentText : String :=
  "\x7b\"name\": \"signup\", \"elements\": [
    \x7b\"type\": \"task\", \"name\": \"ask\", \"start\": true, \"next\": \"consent\"\x7d,
    \x7b\"type\": \"gateway\", \"name\": \"consent\", \"gatewayCondition\": \x7b\"isGroup\": true,
      \"groupCombinationOperator\": \"AND\", \"conditionGroups\": [\x7b\"groupOperator\": \"OR\",
        \"conditions\": [\x7b\"fieldName\": \"agreed\", \"operator\": \"equal\",
          \"comparativeValue\": true\x7d]\x7d]\x7d\x7d]\x7d"

def consentTree : Tree :=
  .object [("name", .text "signup"), ("elements", .array [
    .object [("type", .text "task"), ("name", .text "ask"), ("start", .bool true),
      ("next", .text "consent")],
    .object [("type", .text "gateway"), ("name", .text "consent"), ("gatewayCondition",
      .object [("isGroup", .bool true), ("groupCombinationOperator", .text "AND"),
        ("conditionGroups", .array [.object [("groupOperator", .text "OR"),
          ("conditions", .array [.object [("fieldName", .text "agreed"),
            ("operator", .text "equal"), ("comparativeValue", .bool true)]])]])])]])]

def askTask : Task where
  elementType := ""
  isStart := true
  isEnd := false
  block := false
  next := some "consent"
  events := .ofJson .null
  actors := .ofJson .null
  request := none
  modelPatchFields := []

def consentRule : Rule := .grouped .and [⟨.or, [⟨"agreed", .equal, .boolean true⟩]⟩]

def consent : Definition where
  name := "signup"
  label := ""
  elements := [⟨"ask", "", .task askTask⟩, ⟨"consent", "", .gateway ⟨"", consentRule, none, none⟩⟩]

end Definition

end Workflow
