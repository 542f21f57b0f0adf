import Workflow.Definition.Document
import Workflow.Proofs.Equality
import Workflow.Proofs.JsonValue

/-! Documents. What every reader makes of what its writer wrote: the same thing again if the number
literals in it are finite and read back from their texts, and nothing if one is not finite. -/

namespace Workflow

open Json (Tree Record)

namespace Json.Tree

variable {α : Type} {read : Tree → Option α} {f : α → Json} {d : Nat}

theorem list?_ofList {l : List α} (h : ∀ a ∈ l, read ((f a).spelled d) = some a) :
    list? read ((Json.ofList f l).spelled (d + 1)) = some l := by
  rw [Json.ofList, spelled_array, List.map_map]
  exact mapM_map_eq_some h

theorem nullable?_ofOption {o : Option α}
    (h : ∀ a ∈ o, (f a).spelled d ≠ .null ∧ read ((f a).spelled d) = some a) :
    nullable? read ((Json.ofOption f o).spelled d) = some o := by
  cases o with
  | none => rfl
  | some a =>
    obtain ⟨hne, hread⟩ := h a rfl
    unfold nullable?
    split
    · rename_i heq
      exact absurd heq hne
    · rw [Json.ofOption, hread]
      rfl

theorem list?_texts (l : List String) (d : Nat) :
    list? text? ((Json.ofList Json.text l).spelled (d + 1)) = some l := list?_ofList fun _ _ => rfl

theorem nullable?_text (o : Option String) (d : Nat) :
    nullable? text? ((Json.ofOption Json.text o).spelled d) = some o :=
  nullable?_ofOption fun _ _ => ⟨nofun, rfl⟩

end Json.Tree

namespace Value

/-- A number literal is finite and what its text names. -/
def ReadsBack (v : Value) : Prop := ∀ x, v = number x → x.isFinite = true ∧ x.ReadsBack

/-- A number that JSON lacks. -/
def IsUnwritten (v : Value) : Prop := ∃ x, v = number x ∧ x.isFinite = false

end Value

/-- The result of reading what was written from `a`, in which the conditions `cs` stand. -/
structure Reread {α : Type} (o : Option α) (a : α) (cs : List Condition) : Prop where
  same : (∀ c ∈ cs, c.literal.ReadsBack) → o = some a
  refused : (∃ c ∈ cs, c.literal.IsUnwritten) → o = none

namespace Reread

variable {α β : Type} {o : Option α} {a : α} {cs : List Condition}

theorem of_eq_some (h : o = some a) : Reread o a [] := ⟨fun _ => h, fun ⟨_, hc, _⟩ => nomatch hc⟩

/-- The rest is read after this. -/
theorem bind (h : Reread o a cs) {f : α → Option β} {b : β} (hf : f a = some b) :
    Reread (o.bind f) b cs where
  same hcs := by rw [h.same hcs, Option.bind_some, hf]
  refused hcs := by rw [h.refused hcs, Option.bind_none]

theorem map (h : Reread o a cs) (f : α → β) : Reread (o.map f) (f a) cs where
  same hcs := by rw [h.same hcs, Option.map_some]
  refused hcs := by rw [h.refused hcs, Option.map_none]

theorem list {read : Tree → Option α} {f : α → Json} {l : List α} {d : Nat}
    {conds : α → List Condition} (h : ∀ a ∈ l, Reread (read ((f a).spelled d)) a (conds a)) :
    Reread (Tree.list? read ((Json.ofList f l).spelled (d + 1))) l (l.flatMap conds) where
  same hcs := Tree.list?_ofList fun a ha =>
    (h a ha).same fun c hc => hcs c (List.mem_flatMap.2 ⟨a, ha, hc⟩)
  refused := by
    rintro ⟨c, hc, hliteral⟩
    obtain ⟨a, ha, hc⟩ := List.mem_flatMap.1 hc
    rw [Json.ofList, Json.spelled_array, List.map_map, Tree.list?, List.mapM_map]
    exact mapM_eq_none ha ((h a ha).refused ⟨c, hc, hliteral⟩)

end Reread

theorem Comparison.ofDocument?_title (c : Comparison) : ofDocument? (.text c.title) = some c := by
  cases c <;> rfl

theorem Connective.ofDocument?_title (c : Connective) : ofDocument? (.text c.title) = some c := by
  cases c <;> rfl

theorem Value.ofDocument?_of_readsBack {v : Value} (h : v.ReadsBack) (d : Nat) :
    ofDocument? (v.toDocument.spelled (d + 1)) = some v := by
  cases v with
  | boolean b => rfl
  | text s => rfl
  | number x =>
    obtain ⟨hfinite, hx⟩ := h x rfl
    rw [toDocument, Json.ofBinary64, if_pos hfinite]
    show (Tree.float? (Json.Parser.ofNumber (JsonNumber.float x).reread?)).map number = _
    rw [Json.reread?_of_readsBack hx]
    rfl

theorem Value.ofDocument?_of_isUnwritten {v : Value} (h : v.IsUnwritten) (d : Nat) :
    ofDocument? (v.toDocument.spelled (d + 1)) = none := by
  obtain ⟨x, rfl, hx⟩ := h
  rw [toDocument, Json.ofBinary64, if_neg (by simp [hx])]
  rfl

theorem Condition.reread (c : Condition) (d : Nat) :
    Reread (ofDocument? (c.toDocument.spelled (d + 2))) c [c] := by
  have hliteral : Reread (Value.ofDocument? (c.literal.toDocument.spelled (d + 1))) c.literal [c] :=
    ⟨fun h => Value.ofDocument?_of_readsBack (h c List.mem_cons_self) d, fun ⟨_, hc, h⟩ =>
      Value.ofDocument?_of_isUnwritten (List.mem_singleton.1 hc ▸ h) d⟩
  show Reread ((Comparison.ofDocument? (.text c.comparison.title)).bind _) c [c]
  rw [Comparison.ofDocument?_title]
  show Reread ((Value.ofDocument? (c.literal.toDocument.spelled (d + 1))).bind _) c [c]
  exact hliteral.bind rfl

theorem Group.reread (g : Group) (d : Nat) :
    Reread (ofDocument? (g.toDocument.spelled (d + 4))) g g.conditions := by
  have hconditions := Reread.list fun c (_ : c ∈ g.conditions) => c.reread d
  rw [List.flatMap_singleton'] at hconditions
  show Reread ((Connective.ofDocument? (.text g.connective.title)).bind _) g g.conditions
  rw [Connective.ofDocument?_title]
  show Reread ((Tree.list? Condition.ofDocument?
    ((Json.ofList Condition.toDocument g.conditions).spelled (d + 3))).bind _) g g.conditions
  exact hconditions.bind rfl

theorem Rule.reread (r : Rule) (d : Nat) :
    Reread (ofDocument? (r.toDocument.spelled (d + 7))) r r.conditions := by
  cases r with
  | single c =>
    show Reread ((Condition.ofDocument? (c.toDocument.spelled (d + 6))).map single) _ _
    exact (c.reread (d + 4)).map single
  | grouped c groups =>
    have hgroups := Reread.list fun g (_ : g ∈ groups) => g.reread d
    show Reread ((Connective.ofDocument? (.text c.title)).bind _) _ _
    rw [Connective.ofDocument?_title]
    show Reread ((Tree.list? Group.ofDocument?
      ((Json.ofList Group.toDocument groups).spelled (d + 5))).bind _) _ _
    exact hgroups.bind rfl

theorem QueryParameter.ofDocument?_spelled (q : QueryParameter) (d : Nat) :
    ofDocument? (q.toDocument.spelled (d + 1)) = some q := rfl

theorem Request.ofDocument?_spelled (r : Request) (d : Nat) :
    ofDocument? (r.toDocument.spelled (d + 3)) = some r := by
  have hquery : Tree.list? QueryParameter.ofDocument?
      ((Json.ofList QueryParameter.toDocument r.queryParameters).spelled (d + 2)) =
        some r.queryParameters := Tree.list?_ofList fun q _ => q.ofDocument?_spelled d
  show (Tree.list? QueryParameter.ofDocument?
    ((Json.ofList QueryParameter.toDocument r.queryParameters).spelled (d + 2))).bind _ = _
  rw [hquery]
  show (Tree.list? Tree.text? ((Json.ofList Json.text r.body).spelled (d + 2))).bind _ = _
  rw [Tree.list?_texts]
  rfl

theorem Task.ofDocument?_spelled (t : Task) (d : Nat) :
    ofDocument? (t.toDocument.spelled (d + 4)) = some t := by
  have hrequest : Tree.nullable? Request.ofDocument?
      ((Json.ofOption Request.toDocument t.request).spelled (d + 3)) = some t.request :=
    Tree.nullable?_ofOption fun r _ => ⟨nofun, r.ofDocument?_spelled d⟩
  show (Tree.nullable? Tree.text? ((Json.ofOption Json.text t.next).spelled (d + 3))).bind _ = _
  rw [Tree.nullable?_text]
  show (Tree.nullable? Request.ofDocument?
    ((Json.ofOption Request.toDocument t.request).spelled (d + 3))).bind _ = _
  rw [hrequest]
  show (Tree.list? Tree.text? ((Json.ofList Json.text t.modelPatchFields).spelled (d + 3))).bind _ = _
  rw [Tree.list?_texts]
  rfl

theorem Gateway.reread (g : Gateway) (d : Nat) :
    Reread (ofDocument? (g.toDocument.spelled (d + 8))) g g.rule.conditions := by
  show Reread ((Rule.ofDocument? (g.rule.toDocument.spelled (d + 7))).bind _) _ _
  refine (g.rule.reread d).bind ?_
  show (Tree.nullable? Tree.text? ((Json.ofOption Json.text g.nextIfTrue).spelled (d + 7))).bind _ = _
  rw [Tree.nullable?_text]
  show (Tree.nullable? Tree.text? ((Json.ofOption Json.text g.nextIfFalse).spelled (d + 7))).bind _ = _
  rw [Tree.nullable?_text]
  rfl

theorem Element.reread (e : Element) (d : Nat) :
    Reread (ofDocument? (e.toDocument.spelled (d + 10))) e
      (e.gateway?.toList.flatMap fun w => w.rule.conditions) := by
  obtain ⟨name, label, kind⟩ := e
  show Reread ((ElementKind.ofDocument? (kind.toDocument.spelled (d + 9))).bind _) _ _
  cases kind with
  | task t =>
    show Reread (((Task.ofDocument? (t.toDocument.spelled (d + 8))).map ElementKind.task).bind _) _ _
    rw [t.ofDocument?_spelled]
    exact .of_eq_some rfl
  | gateway g =>
    have hgateway := (g.reread d).map ElementKind.gateway
    have hconditions : ((Element.mk name label (.gateway g)).gateway?.toList.flatMap
        fun w => w.rule.conditions) = g.rule.conditions := by simp [gateway?]
    rw [hconditions]
    show Reread (((Gateway.ofDocument? (g.toDocument.spelled (d + 8))).map ElementKind.gateway).bind _)
      _ _
    exact hgateway.bind rfl

namespace Definition

theorem reread (p : Definition) (d : Nat) :
    Reread (ofDocument? (p.toDocument.spelled (d + 12))) p p.conditions := by
  have helements := Reread.list fun e (_ : e ∈ p.elements) => e.reread d
  show Reread ((Tree.list? Element.ofDocument?
    ((Json.ofList Element.toDocument p.elements).spelled (d + 11))).bind _) _ _
  exact helements.bind rfl

/-- A process is read back from its document as it was, to the last bit of its numbers, if the numbers
that it compares with are finite and read back from their own texts. If one of them is not finite the
document is refused. -/
theorem ofDocumentText?_documentText (p : Definition) :
    ((∀ c ∈ p.conditions, ∀ x, c.literal = .number x → x.isFinite = true ∧ x.ReadsBack) →
      ofDocumentText? p.documentText = some p) ∧
    ∀ c ∈ p.conditions, ∀ x, c.literal = .number x → x.isFinite = false →
      ofDocumentText? p.documentText = none := by
  have hread : Reread (ofDocumentText? p.documentText) p p.conditions := by
    rw [ofDocumentText?, documentText, Json.parse?_render, Option.bind_some]
    exact p.reread 115
  exact ⟨hread.same, fun c hc x hx hfinite => hread.refused ⟨c, hc, x, hx, hfinite⟩⟩

/-- A task that calls, and a gateway that compares a number and has an empty group. -/
def appraisal (x : Binary64) : Definition where
  name := "appraisal"
  label := "\"\x01"
  elements := [
    ⟨"ask", "Ask", .task
      ⟨"service", true, false, true, some "weigh", ⟨"not JSON"⟩, ⟨""⟩,
        some ⟨"/ask", "GET", [⟨"id", "key"⟩], ["score"]⟩, ["score"]⟩⟩,
    ⟨"weigh", "", .gateway
      ⟨"or", .grouped .or [⟨.and, [⟨"score", .lessThan, .number x⟩]⟩, ⟨.or, []⟩], some "ask", none⟩⟩]

theorem conditions_appraisal (x : Binary64) :
    (appraisal x).conditions = [⟨"score", .lessThan, .number x⟩] := rfl

theorem ofDocumentText?_documentText_of_appraisal :
    ofDocumentText? (appraisal .half).documentText = some (appraisal .half) ∧
    ofDocumentText? (appraisal ⟨0x7FF8000000000000⟩).documentText = none := by
  obtain ⟨hsame, -⟩ := ofDocumentText?_documentText (appraisal .half)
  obtain ⟨-, hrefused⟩ := ofDocumentText?_documentText (appraisal ⟨0x7FF8000000000000⟩)
  refine ⟨hsame ?_, hrefused _ (List.mem_singleton.2 rfl) ⟨0x7FF8000000000000⟩ rfl (by decide)⟩
  rw [conditions_appraisal, List.forall_mem_singleton]
  rintro x ⟨⟩
  exact ⟨by decide, Binary64.half_readsBack⟩

end Definition

end Workflow
