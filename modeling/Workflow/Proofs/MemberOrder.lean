import Workflow.Proofs.Blanks
import Workflow.Proofs.Reordering
import Workflow.Wire.Loader

/-! A process is read from its text whatever the order of members there, and whatever the blanks. -/

namespace Workflow

open Json (Tree Record)
open Entries (under)

theorem DraftCondition.ofTree?_steady : Tree.Steady ofTree? := by
  refine Record.steady _ _ fun r s h => ?_
  simp only [h.required Tree.text?_steady, h.withDefault Tree.value?_steady]

theorem DraftGroup.ofTree?_steady : Tree.Steady ofTree? := by
  refine Record.steady _ _ fun r s h => ?_
  simp only [h.required Tree.text?_steady,
    h.withDefault (Tree.list?_steady DraftCondition.ofTree?_steady)]

theorem DraftRule.ofTree?_steady : Tree.Steady ofTree? := by
  refine Record.steady _ _ fun r s h => ?_
  simp only [h.optional (Tree.nullable?_steady Tree.bool?_steady),
    h.optional (Tree.nullable?_steady Tree.text?_steady),
    h.optional (Tree.nullable?_steady (Tree.list?_steady DraftGroup.ofTree?_steady)),
    h.optional (Tree.nullable?_steady DraftCondition.ofTree?_steady)]

theorem QueryParameter.ofTree?_steady : Tree.Steady ofTree? := by
  refine Record.steady _ _ fun r s h => ?_
  simp only [h.required Tree.text?_steady]

theorem Request.ofTree?_steady : Tree.Steady ofTree? := by
  refine Record.steady _ _ fun r s h => ?_
  simp only [h.required Tree.text?_steady,
    h.withDefault (Tree.list?_steady QueryParameter.ofTree?_steady),
    h.withDefault (Tree.list?_steady Tree.text?_steady)]

namespace DraftElement

theorem payload?_reordered {r s : Record} (h : r.Reordered s) (name : String) :
    payload? r name = payload? s name := by
  rw [payload?, payload?, h.withDefault Tree.value?_steady]

theorem taskOfTree?_steady : Tree.Steady taskOfTree? := by
  refine Record.steady _ _ fun r s h => ?_
  simp only [h.required Tree.text?_steady, h.withDefault Tree.text?_steady,
    h.withDefault Tree.bool?_steady, payload?_reordered h,
    h.withDefault (Tree.nullable?_steady Tree.text?_steady),
    h.withDefault (Tree.nullable?_steady Request.ofTree?_steady),
    h.withDefault (Tree.list?_steady Tree.text?_steady)]

theorem gatewayOfTree?_steady : Tree.Steady gatewayOfTree? := by
  refine Record.steady _ _ fun r s h => ?_
  simp only [h.required Tree.text?_steady, h.withDefault Tree.text?_steady,
    h.required DraftRule.ofTree?_steady,
    h.withDefault (Tree.nullable?_steady Tree.text?_steady)]

/-- The text that stands alone. -/
def tag? : List Tree → Option String
  | [t] => t.text?
  | _ => none

theorem tag?_reordered {ts us : List Tree} (h : List.Forall₂ Tree.Reordered ts us) :
    tag? ts = tag? us := by
  rcases h with _ | ⟨htu, _ | _⟩
  · rfl
  · exact Tree.text?_steady _ _ htu
  · rfl

theorem tagged?_object (ms : List (String × Tree)) : tagged? (.object ms) =
    (tag? (under "type" ms)).map (·, .object (ms.filter fun m => m.1 ≠ "type")) := by
  simp only [tagged?, under]
  generalize ms.filter (fun m => decide (m.1 = "type")) = tags
  rcases tags with _ | ⟨⟨k, t⟩, _ | _⟩
  · rfl
  · cases t <;> rfl
  · cases t <;> rfl

theorem tagged?_array (ts : List Tree) : tagged? (.array ts) =
    (tag? (ts.take 1)).map (·, .array ts.tail) := by
  rcases ts with _ | ⟨t, r⟩
  · rfl
  · cases t <;> rfl

/-- Wherever the tag stands, it is the same, and so are the other members. -/
theorem tagged?_reordered {t u : Tree} (h : t.Reordered u) :
    Option.Rel (fun a b => a.1 = b.1 ∧ a.2.Reordered b.2) (tagged? t) (tagged? u) := by
  rcases h.forms with rfl | ⟨ts, us, rfl, rfl, hitems⟩ | ⟨ms, ns, rfl, rfl, hmembers⟩
  · cases tagged? t with
    | none => exact .none
    | some a => exact .some ⟨rfl, .same a.2⟩
  · rw [tagged?_array, tagged?_array, tag?_reordered (List.forall₂_take 1 hitems)]
    cases tag? (us.take 1) with
    | none => exact .none
    | some tag =>
      refine .some ⟨rfl, ?_⟩
      rcases hitems with _ | ⟨-, hrest⟩
      · exact .same _
      · exact .of_items hrest
  · rw [tagged?_object, tagged?_object, tag?_reordered (hmembers "type")]
    cases tag? (under "type" ns) with
    | none => exact .none
    | some tag =>
      refine .some ⟨rfl, .of_members fun k => ?_⟩
      rw [Entries.under_filter_ne, Entries.under_filter_ne]
      split
      · exact .nil
      · exact hmembers k

theorem ofTree?_steady : Tree.Steady ofTree? := by
  intro t u h
  have hreadable : t.readable = u.readable := congrArg Option.isSome (Tree.value?_steady t u h)
  unfold ofTree?
  rw [hreadable]
  rcases cases_of_rel (tagged?_reordered h) with ⟨ht, hu⟩ | ⟨⟨tag, t'⟩, ⟨_, u'⟩, ht, hu, rfl, h'⟩
  · rw [ht, hu]
  · rw [ht, hu]
    split
    · rcases eq_or_ne tag "task" with rfl | htask
      · exact taskOfTree?_steady _ _ h'
      rcases eq_or_ne tag "gateway" with rfl | hgateway
      · exact gatewayOfTree?_steady _ _ h'
      · simp [htask, hgateway]
    · rfl

end DraftElement

theorem Draft.ofTree?_steady : Tree.Steady ofTree? := by
  refine Record.steady _ _ fun r s h => ?_
  simp only [h.required Tree.text?_steady, h.withDefault Tree.text?_steady,
    h.required (Tree.list?_steady DraftElement.ofTree?_steady)]

namespace Definition

/-- Two texts that are the same without the blanks outside their strings spell the same tree. Two texts
whose trees are the same up to the order of members of different names, at any depth, give the same
process or the same error. Elements are read the same wherever their tag stands, and literals and
payloads have the same values. -/
theorem ofText_ignores_order :
    (∀ s s' t t', Tree.parse? s = some t → Tree.parse? s' = some t' →
      (Json.condensed s = Json.condensed s' → t = t') ∧ (t.Reordered t' → ofText s = ofText s')) ∧
    (∀ t u : Tree, t.Reordered u →
      DraftElement.ofTree? t = DraftElement.ofTree? u ∧ t.value? = u.value?) ∧
    ∀ ms ms' ns : List (String × Tree), (ms.map Prod.fst).Nodup → ms.Perm ms' →
      List.Forall₂ (fun m n => m.1 = n.1 ∧ m.2.Reordered n.2) ms' ns →
        (Tree.object ms).Reordered (.object ns) := by
  refine ⟨fun s s' t t' hs hs' => ⟨fun hblanks => ?_, fun h => ?_⟩, fun t u h => ?_, ?_⟩
  · have ht := Tree.parse?_condensed hs
    rw [hblanks, Tree.parse?_condensed hs'] at ht
    exact (Option.some.inj ht).symm
  · unfold ofText
    rw [hs, hs', Option.bind_some, Option.bind_some, Draft.ofTree?_steady t t' h]
  · exact ⟨DraftElement.ofTree?_steady t u h, Tree.value?_steady t u h⟩
  · intro ms ms' ns distinct hperm hms
    exact .of_perm distinct hperm hms

/-- A process of one task. -/
def dispatchText : String :=
  "\x7b\"name\":\"p\",\"elements\":[\x7b\"type\":\"task\",\"name\":\"send it\",
    \"events\":\x7b\"x\":1,\"y\":[]\x7d\x7d]\x7d"

/-- The same with other blanks. -/
def dispatchTextSpaced : String :=
  "\x7b\"name\": \"p\", \"elements\": [ \x7b\"type\": \"task\", \"name\": \"send it\",
    \"events\": \x7b\"x\": 1, \"y\": [ ]\x7d\x7d]\x7d"

/-- The same with the members of every object in another order. -/
def dispatchTextMoved : String :=
  "\x7b\"elements\":[\x7b\"name\":\"send it\",\"events\":\x7b\"y\":[],\"x\":1\x7d,
    \"type\":\"task\"\x7d],\"name\":\"p\"\x7d"

def dispatchTag : String × Tree := ("type", .text "task")

def dispatchEvents : List (String × Tree) := [("x", .number (.whole 1)), ("y", .array [])]

def dispatchMembers (events : List (String × Tree)) : List (String × Tree) :=
  [("name", .text "send it"), ("events", .object events)]

def dispatchTree : Tree :=
  .object [("name", .text "p"),
    ("elements", .array [.object ([dispatchTag] ++ dispatchMembers dispatchEvents)])]

def dispatchTreeMoved : Tree :=
  .object [("elements", .array [.object (dispatchMembers dispatchEvents.reverse ++ [dispatchTag])]),
    ("name", .text "p")]

theorem dispatchTree_reordered : dispatchTree.Reordered dispatchTreeMoved := by
  have hevents : (Tree.object dispatchEvents).Reordered (.object dispatchEvents.reverse) :=
    .of_perm (by decide) (List.reverse_perm dispatchEvents).symm (Tree.Reordered.same_members _)
  have helement : (Tree.object ([dispatchTag] ++ dispatchMembers dispatchEvents)).Reordered
      (.object (dispatchMembers dispatchEvents.reverse ++ [dispatchTag])) := by
    apply Tree.Reordered.of_perm (by decide) List.perm_append_comm
    exact .cons ⟨rfl, .same _⟩ (.cons ⟨rfl, hevents⟩ (Tree.Reordered.same_members [dispatchTag]))
  apply Tree.Reordered.of_perm (by decide) (List.Perm.swap _ _ _)
  exact .cons ⟨rfl, .of_items (.cons helement .nil)⟩ (Tree.Reordered.same_members [("name", .text "p")])

theorem ofText_ignores_order_of_dispatch :
    Tree.parse? dispatchText = some dispatchTree ∧
    (∀ t, Tree.parse? dispatchTextSpaced = some t → t = dispatchTree) ∧
    Tree.parse? dispatchTextMoved = some dispatchTreeMoved ∧
    ofText dispatchTextMoved = ofText dispatchText ∧ ∃ p, ofText dispatchText = .ok p := by
  have htree : Tree.parse? dispatchText = some dispatchTree := by cbv
  have hmoved : Tree.parse? dispatchTextMoved = some dispatchTreeMoved := by cbv
  have hblanks : Json.condensed dispatchTextSpaced = Json.condensed dispatchText := by cbv
  obtain ⟨hlaws, -, -⟩ := ofText_ignores_order
  refine ⟨htree, fun t ht => (hlaws _ _ _ _ ht htree).1 hblanks, hmoved, ?_, ?_⟩
  · exact ((hlaws _ _ _ _ htree hmoved).2 dispatchTree_reordered).symm
  · rw [ofText, htree]
    exact ⟨_, rfl⟩

end Definition

end Workflow
