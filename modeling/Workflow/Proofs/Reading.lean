import Mathlib.Tactic.Simproc.ExistsAndEq
import Workflow.Wire.Reader
import Workflow.Proofs.JsonValue
import Workflow.Proofs.Shape

/-! A tree is read as a draft just if it gives that draft: one equivalence for each reader, and for
each way in which a member is asked for. -/

namespace Workflow

open Json (Tree Record)

namespace Json.Tree

/-- What `read` takes from a tree is what the tree gives, in the sense of `R`. -/
def Reads {α : Type} (read : Tree → Option α) (R : Tree → α → Prop) : Prop :=
  ∀ t a, read t = some a ↔ R t a

theorem text?_reads : Reads text? GivesText := by
  intro t s
  cases t <;> simp [text?, GivesText]

theorem bool?_reads : Reads bool? GivesBool := by
  intro t b
  cases t <;> simp [bool?, GivesBool]

theorem givesValue_of_value? (t : Tree) (v : Json) (h : t.value? = some v) : t.GivesValue v := by
  match t with
  | null =>
    cases h
    exact .null
  | bool b =>
    cases h
    exact .bool b
  | number n =>
    cases h
    exact .number n
  | text s =>
    cases h
    exact .text s
  | array ts =>
    obtain ⟨vs, hvs, rfl⟩ := Option.map_eq_some_iff.1 h
    rw [values?_eq_mapM] at hvs
    obtain rfl := eq_map_of_mapM hvs fun _ => .null
    exact .array fun t ht => givesValue_of_value? t _ (mapM_eq_some_map_iff.1 hvs t ht)
  | object ms =>
    obtain ⟨vs, hvs, rfl⟩ := Option.map_eq_some_iff.1 h
    rw [memberValues?_eq_mapM] at hvs
    obtain rfl := eq_map_of_mapM hvs fun m => (m.1, .null)
    simp only [Option.getD_map] at hvs ⊢
    refine .object (f := fun u => u.value?.getD .null) fun m hm => givesValue_of_value? m.2 _ ?_
    obtain ⟨v, hv, -⟩ := Option.map_eq_some_iff.1 (mapM_eq_some_map_iff.1 hvs m hm)
    rw [hv, Option.getD_some]
  | unreadable => cases h
termination_by sizeOf t
decreasing_by
  · have hlt := List.sizeOf_lt_of_mem ht
    simp only [array.sizeOf_spec]
    omega
  · have hlt := List.sizeOf_lt_of_mem hm
    have hmember : sizeOf m = 1 + sizeOf m.1 + sizeOf m.2 := rfl
    simp only [object.sizeOf_spec]
    omega

theorem value?_reads : Reads value? GivesValue := by
  intro t v
  refine ⟨givesValue_of_value? t v, fun h => ?_⟩
  induction h with
  | null | bool | number | text => rfl
  | array _ ih => rw [value?, values?_eq_mapM, mapM_eq_some_map_iff.2 ih, Option.map_some]
  | object _ ih =>
    rw [value?, memberValues?_eq_mapM, mapM_eq_some_map_iff.2 fun m hm => by rw [ih m hm]; rfl,
      Option.map_some]

theorem readable_iff {t : Tree} : t.readable = true ↔ t.Readable := by
  simp only [readable, Option.isSome_iff_exists, value?_reads _ _, Readable]

section

variable {α : Type} {read : Tree → Option α} {R : Tree → α → Prop} (h : Reads read R)
include h

theorem Reads.list : Reads (list? read) (ListOf R) := by
  intro t l
  cases t <;> simp [list?, ListOf, mapM_eq_some_iff, h _ _]

theorem Reads.orNull (hnull : ∀ a, ¬ R .null a) : Reads (nullable? read) (OrNull R) := by
  intro t o
  cases o with
  | none => cases t <;> simp [nullable?, OrNull]
  | some a =>
    rw [OrNull, ← h t a]
    cases t with
    | null => simp [nullable?, (h _ _).not.2 (hnull a)]
    | _ => simp [nullable?]

end

/-- An array leaves nothing out just if it is as long as the list of members. -/
theorem IsRecord.forall_length_iff {names : List String} (hnames : names.Nodup) {t : Tree}
    (h : t.IsRecord names) :
    (∀ ts, t = .array ts → ts.length = names.length) ↔
      ((∃ ts, t = .array ts) → ∀ k ∈ names, t.at? names k ≠ none) := by
  cases t with
  | array ts =>
    have hlength : ts.length ≤ names.length := h
    simp only [array.injEq, forall_eq', exists_eq', true_implies, at?, ne_eq,
      List.getElem?_eq_none_iff, not_le]
    constructor
    · intro heq k hk
      rw [heq]
      exact List.idxOf_lt_length_of_mem hk
    · intro hall
      by_contra hne
      have hlt : ts.length < names.length := lt_of_le_of_ne hlength hne
      have hidx := hall names[ts.length] (List.getElem_mem hlt)
      rw [hnames.idxOf_getElem] at hidx
      exact lt_irrefl _ hidx
  | _ => simp

end Json.Tree

namespace Json.Record

/-- The reader keeps a member just if it goes by one of the names, and then under that name. -/
structure Keeps (names : List String) (aliases : List (String × String)) : Prop where
  mem : ∀ q k, keptAs names aliases q = some k → k ∈ names
  iff : ∀ q k, k ∈ names → (keptAs names aliases q = some k ↔ q ∈ Tree.goesBy k)

theorem keeps_of_not_mem (names : List String) (h : "modelPatchField" ∉ names) :
    Keeps names [] where
  mem q k hk := by
    unfold keptAs at hk
    split at hk
    · cases hk
      assumption
    · cases hk
  iff q k hk := by
    have hne : k ≠ "modelPatchField" := fun heq => h (heq ▸ hk)
    rw [keptAs, Tree.goesBy, if_neg hne, List.mem_singleton, List.lookup_nil]
    split
    · exact Option.some_inj
    · rename_i hq
      exact iff_of_false nofun fun heq => hq (heq ▸ hk)

/-- A task has one member with two names. -/
theorem keeps_taskMembers :
    Keeps DraftElement.taskMembers [("modelPatchFields", "modelPatchField")] where
  mem q k hk := by
    unfold keptAs at hk
    split at hk
    · cases hk
      assumption
    · rw [List.lookup_cons] at hk
      split at hk
      · cases hk
        decide
      · cases hk
  iff q k hk := by
    have hlookup : [("modelPatchFields", "modelPatchField")].lookup q =
        if q = "modelPatchFields" then some "modelPatchField" else none := by
      rw [List.lookup_cons, List.lookup_nil]
      split <;> simp_all
    have hother : "modelPatchFields" ∉ DraftElement.taskMembers := by decide
    rw [keptAs, Tree.goesBy, hlookup]
    by_cases hq : q ∈ DraftElement.taskMembers
    · have hne : q ≠ "modelPatchFields" := fun heq => hother (heq ▸ hq)
      rw [if_pos hq, Option.some_inj]
      split
      · simp [hne]
      · rw [List.mem_singleton]
    · have hne : q ≠ k := fun heq => hq (heq ▸ hk)
      rw [if_neg hq]
      by_cases hmember : k = "modelPatchField"
      · simp [← hmember, hne]
      · simp [hmember, Ne.symm hmember, hne]

variable {names : List String} {aliases : List (String × String)} {k : String}

theorem Keeps.find?_kept (h : Keeps names aliases) (hk : k ∈ names) (ms : List (String × Tree)) :
    Entries.find? k (ms.filterMap fun m => (keptAs names aliases m.1).map (·, m.2)) =
      (ms.find? (·.1 ∈ Tree.goesBy k)).map Prod.snd := by
  induction ms with
  | nil => rfl
  | cons m r ih =>
    obtain ⟨q, t⟩ := m
    simp only [List.find?_cons, ← h.iff q k hk]
    cases hq : keptAs names aliases q with
    | none => simpa [hq] using ih
    | some k' =>
      by_cases hsame : k' = k
      · simp [hq, hsame, Entries.find?]
      · simpa [hq, hsame, Entries.find?] using ih

theorem Keeps.count_kept (h : Keeps names aliases) (hk : k ∈ names) (ms : List (String × Tree)) :
    ((ms.filterMap fun m => (keptAs names aliases m.1).map (·, m.2)).map Prod.fst).count k =
      ms.countP (·.1 ∈ Tree.goesBy k) := by
  induction ms with
  | nil => rfl
  | cons m r ih =>
    obtain ⟨q, t⟩ := m
    simp only [List.countP_cons, ← h.iff q k hk]
    cases hq : keptAs names aliases q with
    | none => simpa [hq] using ih
    | some k' =>
      by_cases hsame : k' = k
      · simpa [hq, hsame] using ih
      · simpa [hq, hsame] using ih

theorem Keeps.nodup_kept (h : Keeps names aliases) (ms : List (String × Tree)) :
    ((ms.filterMap fun m => (keptAs names aliases m.1).map (·, m.2)).map Prod.fst).Nodup ↔
      (Tree.object ms).IsRecord names := by
  rw [List.nodup_iff_count_le_one]
  constructor
  · intro hcount k hk
    rw [← h.count_kept hk]
    exact hcount k
  · intro hcount k
    by_cases hk : k ∈ names
    · rw [h.count_kept hk]
      exact hcount k hk
    · have hnone : k ∉ (ms.filterMap fun m => (keptAs names aliases m.1).map (·, m.2)).map
          Prod.fst := by
        intro hmem
        obtain ⟨m, hm, rfl⟩ := List.mem_map.1 hmem
        obtain ⟨n, -, hn⟩ := List.mem_filterMap.1 hm
        obtain ⟨q, hq, rfl⟩ := Option.map_eq_some_iff.1 hn
        exact hk (h.mem _ _ hq)
      rw [List.count_eq_zero_of_not_mem hnone]
      exact Nat.zero_le 1

theorem find?_zip (hk : k ∈ names) (ts : List Tree) :
    Entries.find? k (names.zip ts) = ts[names.idxOf k]? := by
  induction names generalizing ts with
  | nil => cases hk
  | cons n r ih =>
    cases ts with
    | nil => rfl
    | cons t ts =>
      rw [List.zip_cons_cons, Entries.find?]
      by_cases hn : n = k
      · subst hn
        simp
      · have hr : k ∈ r := (List.mem_cons.1 hk).resolve_left (Ne.symm hn)
        rw [if_neg hn, ih hr, List.idxOf_cons_ne _ hn, List.getElem?_cons_succ]

theorem Keeps.exists_ofTree?_iff (h : Keeps names aliases) (t : Tree) :
    (∃ r, ofTree? names aliases t = some r) ↔ t.IsRecord names := by
  cases t with
  | object ms =>
    rw [← h.nodup_kept]
    simp [ofTree?]
  | array ts => simp [ofTree?, Tree.IsRecord]
  | _ => simp [ofTree?, Tree.IsRecord]

/-- A record has what its tree has. -/
theorem Keeps.find?_of_ofTree? (h : Keeps names aliases) (hk : k ∈ names) {t : Tree} {r : Record}
    (hr : ofTree? names aliases t = some r) : r.find? k = t.at? names k := by
  cases t with
  | object ms =>
    simp only [ofTree?, Option.ite_none_right_eq_some, Option.some.injEq] at hr
    obtain ⟨-, rfl⟩ := hr
    exact h.find?_kept hk ms
  | array ts =>
    simp only [ofTree?, Option.ite_none_right_eq_some, Option.some.injEq] at hr
    obtain ⟨-, rfl⟩ := hr
    exact find?_zip hk ts
  | _ => cases hr

theorem byPosition_of_ofTree? {t : Tree} {r : Record} (hr : ofTree? names aliases t = some r) :
    r.byPosition = true ↔ ∃ ts, t = .array ts := by
  cases t with
  | object ms =>
    simp only [ofTree?, Option.ite_none_right_eq_some, Option.some.injEq] at hr
    obtain ⟨-, rfl⟩ := hr
    simp
  | array ts =>
    simp only [ofTree?, Option.ite_none_right_eq_some, Option.some.injEq] at hr
    obtain ⟨-, rfl⟩ := hr
    simp
  | _ => cases hr

section

variable {α : Type} {r : Record} {t : Tree} (hk : r.find? k = t.at? names k)
include hk

theorem required_text_iff {s : String} :
    r.required k Tree.text? = some s ↔ t.at? names k = some (.text s) := by
  simp [required, hk, Option.bind_eq_some_iff, Tree.text?_reads _ _, Tree.GivesText]

variable {read : Tree → Option α} {R : Tree → α → Prop} {a : α} (h : Tree.Reads read R)
include h

theorem required_iff : r.required k read = some a ↔ ∃ u, t.at? names k = some u ∧ R u a := by
  simp only [required, hk, Option.bind_eq_some_iff, h _ _]

theorem withDefault_iff {d : α} (default : Tree) (hd : R default d) :
    r.withDefault k d read = some a ↔ R (t.given names k default) a := by
  rw [withDefault, hk, Tree.given]
  cases t.at? names k with
  | none => simp only [Option.getD_none, ← h _ _, (h default d).2 hd]
  | some u => exact h u a

theorem withDefault_list_iff {l : List α} :
    r.withDefault k [] (Tree.list? read) = some l ↔
      Tree.ListOf R (t.given names k (.array [])) l :=
  withDefault_iff hk h.list (.array []) ⟨[], rfl, .nil⟩

variable (hnull : ∀ a, ¬ R .null a) {o : Option α}
include hnull

theorem withDefault_nullable_iff :
    r.withDefault k none (Tree.nullable? read) = some o ↔
      Tree.OrNull R (t.given names k .null) o :=
  withDefault_iff hk (h.orNull hnull) .null rfl

/-- In an array the member must be there. -/
theorem optional_iff :
    r.optional k (Tree.nullable? read) = some o ↔
      (r.byPosition = true → t.at? names k ≠ none) ∧ Tree.OrNull R (t.given names k .null) o := by
  rw [optional, hk, Tree.given]
  cases t.at? names k with
  | none =>
    rw [Option.getD_none, ← h.orNull hnull]
    cases r.byPosition <;> simp [Tree.nullable?]
  | some u => simp [h.orNull hnull u o]

end

section

variable {r : Record} {t : Tree} (hk : r.find? k = t.at? names k)
include hk

theorem withDefault_text_iff {s : String} :
    r.withDefault k "" Tree.text? = some s ↔ (t.given names k (.text "")).GivesText s :=
  withDefault_iff hk Tree.text?_reads (.text "") rfl

theorem withDefault_flag_iff {b : Bool} :
    r.withDefault k false Tree.bool? = some b ↔ (t.given names k (.bool false)).GivesBool b :=
  withDefault_iff hk Tree.bool?_reads (.bool false) rfl

end

theorem Keeps.bind_eq_some_iff (h : Keeps names aliases) {α : Type} {f : Record → Option α} {a : α}
    {t : Tree} {Q : Prop}
    (hf : ∀ r : Record, t.IsRecord names → (∀ k ∈ names, r.find? k = t.at? names k) →
      (r.byPosition = true ↔ ∃ ts, t = .array ts) → (f r = some a ↔ Q)) :
    (ofTree? names aliases t).bind f = some a ↔ t.IsRecord names ∧ Q := by
  cases hr : ofTree? names aliases t with
  | none =>
    have hnone : ¬ t.IsRecord names := by simp [← h.exists_ofTree?_iff, hr]
    simp [hnone]
  | some r =>
    have hrecord : t.IsRecord names := (h.exists_ofTree?_iff t).1 ⟨r, hr⟩
    simpa [hrecord] using
      hf r hrecord (fun k hk => h.find?_of_ofTree? hk hr) (byPosition_of_ofTree? hr)

end Json.Record

theorem DraftCondition.ofTree?_reads : Tree.Reads ofTree? Tree.GivesCondition := by
  intro t d
  rw [Tree.givesCondition_iff]
  refine (Record.keeps_of_not_mem Tree.conditionFields (by decide)).bind_eq_some_iff
    fun r _ hat _ => ?_
  cases d
  simp [Option.bind_eq_some_iff, Record.required_text_iff (hat "fieldName" (by decide)),
    Record.required_text_iff (hat "operator" (by decide)),
    Record.withDefault_iff (hat "comparativeValue" (by decide)) Tree.value?_reads .null .null]

theorem DraftGroup.ofTree?_reads : Tree.Reads ofTree? Tree.GivesGroup := by
  intro t d
  rw [Tree.givesGroup_iff]
  refine (Record.keeps_of_not_mem Tree.groupFields (by decide)).bind_eq_some_iff fun r _ hat _ => ?_
  cases d
  simp [Option.bind_eq_some_iff, Record.required_text_iff (hat "groupOperator" (by decide)),
    Record.withDefault_list_iff (hat "conditions" (by decide)) DraftCondition.ofTree?_reads]

theorem DraftRule.ofTree?_reads : Tree.Reads ofTree? Tree.GivesRule := by
  intro t d
  rw [Tree.givesRule_iff]
  refine (Record.keeps_of_not_mem Tree.ruleFields (by decide)).bind_eq_some_iff
    fun r hrecord hat hposition => ?_
  rw [hrecord.forall_length_iff (by decide), ← hposition]
  cases d
  simp [Option.bind_eq_some_iff, Tree.ruleFields,
    Record.optional_iff (hat "isGroup" (by decide)) Tree.bool?_reads nofun,
    Record.optional_iff (hat "groupCombinationOperator" (by decide)) Tree.text?_reads nofun,
    Record.optional_iff (hat "conditionGroups" (by decide)) DraftGroup.ofTree?_reads.list nofun,
    Record.optional_iff (hat "condition" (by decide)) DraftCondition.ofTree?_reads nofun]
  tauto

theorem QueryParameter.ofTree?_reads : Tree.Reads ofTree? Tree.GivesQueryParameter := by
  intro t q
  rw [Tree.givesQueryParameter_iff]
  refine (Record.keeps_of_not_mem Tree.queryFields (by decide)).bind_eq_some_iff fun r _ hat _ => ?_
  cases q
  simp [Option.bind_eq_some_iff, Record.required_text_iff (hat "modelField" (by decide)),
    Record.required_text_iff (hat "paramName" (by decide))]

theorem Request.ofTree?_reads : Tree.Reads ofTree? Tree.GivesRequest := by
  intro t q
  rw [Tree.givesRequest_iff]
  refine (Record.keeps_of_not_mem Tree.requestFields (by decide)).bind_eq_some_iff
    fun r _ hat _ => ?_
  cases q
  simp [Option.bind_eq_some_iff, Record.required_text_iff (hat "url" (by decide)),
    Record.required_text_iff (hat "method" (by decide)),
    Record.withDefault_list_iff (hat "queryParams" (by decide)) QueryParameter.ofTree?_reads,
    Record.withDefault_list_iff (hat "body" (by decide)) Tree.text?_reads]

/-- An element without its tag. -/
def Json.Tree.untagged : Tree → Tree
  | object ms => .object (ms.filter (fun m => m.1 ≠ "type"))
  | array ts => .array ts.tail
  | t => t

theorem DraftElement.tagged?_object_iff {ms : List (String × Tree)} {u : Tree} {tag : String} :
    tagged? (.object ms) = some (tag, u) ↔
      ms.countP (·.1 = "type") ≤ 1 ∧ (ms.find? (·.1 = "type")).map Prod.snd = some (.text tag) ∧
        u = (Tree.object ms).untagged := by
  rw [List.countP_eq_length_filter, ← List.head?_filter, tagged?, Tree.untagged]
  generalize ms.filter (fun m => m.1 = "type") = tags
  rcases tags with _ | ⟨⟨k, v⟩, _ | ⟨_, _⟩⟩
  · simp
  · cases v <;> simp [eq_comm]
  · simp

section

variable {names : List String} (hnames : "type" ∉ names)
include hnames

theorem Json.Tree.ne_tag {k q : String} (hk : k ∈ names) (hq : q ∈ goesBy k) : q ≠ "type" := by
  rintro rfl
  have hne : "type" ≠ k := fun heq => hnames (heq ▸ hk)
  unfold goesBy at hq
  split at hq <;> simp [hne] at hq

theorem Json.Tree.at?_untagged {k : String} (hk : k ∈ names) (t : Tree) :
    t.untagged.at? names k = t.at? ("type" :: names) k := by
  cases t with
  | object ms =>
    have hkept (m : String × Tree) : m.1 ≠ "type" ∧ m.1 ∈ goesBy k ↔ m.1 ∈ goesBy k :=
      and_iff_right_of_imp (ne_tag hnames hk)
    simp only [untagged, at?, List.find?_filter, decide_eq_true_eq, hkept]
  | array ts =>
    have hne : "type" ≠ k := fun heq => hnames (heq ▸ hk)
    simp [untagged, at?, List.idxOf_cons_ne _ hne]
  | _ => rfl

theorem Json.Tree.isRecord_untagged {ms : List (String × Tree)} :
    (Tree.object ms).untagged.IsRecord names ↔ (Tree.object ms).IsRecord names := by
  refine forall₂_congr fun k hk => ?_
  have hkept (m : String × Tree) : m.1 ∈ goesBy k ∧ m.1 ≠ "type" ↔ m.1 ∈ goesBy k :=
    and_iff_left_of_imp (ne_tag hnames hk)
  simp only [List.countP_filter, ← Bool.decide_and, hkept]

theorem DraftElement.tagged?_iff {t u : Tree} {tag : String} :
    tagged? t = some (tag, u) ∧ u.IsRecord names ↔
      t.IsRecord ("type" :: names) ∧ t.at? ("type" :: names) "type" = some (.text tag) ∧
        u = t.untagged := by
  cases t with
  | object ms =>
    have htag : Tree.goesBy "type" = ["type"] := rfl
    have hrecord : (Tree.object ms).IsRecord ("type" :: names) ↔
        ms.countP (·.1 = "type") ≤ 1 ∧ (Tree.object ms).IsRecord names := by
      simp [Tree.IsRecord, htag]
    rw [tagged?_object_iff, hrecord, ← Tree.isRecord_untagged hnames]
    simp only [Tree.at?, htag, List.mem_singleton]
    constructor
    · rintro ⟨⟨hcount, hat, rfl⟩, hrest⟩
      exact ⟨⟨hcount, hrest⟩, hat, rfl⟩
    · rintro ⟨⟨hcount, hrest⟩, hat, rfl⟩
      exact ⟨⟨hcount, hat, rfl⟩, hrest⟩
  | array ts =>
    rcases ts with _ | ⟨v, ts⟩
    · simp [tagged?, Tree.at?]
    · cases v with
      | text s =>
        simp only [tagged?, Tree.at?, List.idxOf_cons_self, List.getElem?_cons_zero,
          Option.some.injEq, Prod.mk.injEq, Tree.text.injEq]
        constructor
        · rintro ⟨⟨rfl, rfl⟩, h⟩
          exact ⟨Nat.succ_le_succ h, rfl, rfl⟩
        · rintro ⟨h, rfl, rfl⟩
          exact ⟨⟨rfl, rfl⟩, Nat.le_of_succ_le_succ h⟩
      | _ => simp [tagged?, Tree.at?]
  | _ => simp [tagged?, Tree.at?]

/-- An element is read as the tag says, from what it has besides the tag. -/
theorem DraftElement.exists_tagged?_iff {aliases : List (String × String)}
    (h : Record.Keeps names aliases) {f : Record → Option DraftElement} {d : DraftElement}
    {t : Tree} {tag : String} {Q : Prop}
    (hf : ∀ r : Record, (∀ k ∈ names, r.find? k = t.at? ("type" :: names) k) → (f r = some d ↔ Q)) :
    (∃ u, tagged? t = some (tag, u) ∧ (Record.ofTree? names aliases u).bind f = some d) ↔
      t.IsRecord ("type" :: names) ∧ t.at? ("type" :: names) "type" = some (.text tag) ∧ Q := by
  have hread {r : Record} (hr : Record.ofTree? names aliases t.untagged = some r) :
      f r = some d ↔ Q :=
    hf r fun k hk => (h.find?_of_ofTree? hk hr).trans (Tree.at?_untagged hnames hk t)
  constructor
  · rintro ⟨u, hu, hbind⟩
    obtain ⟨r, hr, hfr⟩ := Option.bind_eq_some_iff.1 hbind
    obtain ⟨hrecord, htag, rfl⟩ :=
      (tagged?_iff hnames).1 ⟨hu, (h.exists_ofTree?_iff u).1 ⟨r, hr⟩⟩
    exact ⟨hrecord, htag, (hread hr).1 hfr⟩
  · rintro ⟨hrecord, htag, hQ⟩
    obtain ⟨hu, hrest⟩ := (tagged?_iff hnames).2 ⟨hrecord, htag, rfl⟩
    obtain ⟨r, hr⟩ := (h.exists_ofTree?_iff _).2 hrest
    exact ⟨_, hu, Option.bind_eq_some_iff.2 ⟨r, hr, (hread hr).2 hQ⟩⟩

end

namespace DraftElement

theorem payload?_iff {r : Record} {t : Tree} {k : String}
    (hk : r.find? k = t.at? Tree.taskFields k) {p : Payload} :
    payload? r k = some p ↔ t.GivesPayload k p := by
  simp [payload?, Tree.GivesPayload, Record.withDefault_iff hk Tree.value?_reads .null .null,
    @eq_comm _ p]

theorem exists_taskOfTree?_iff {t : Tree} {name label : String} {k : Task} :
    (∃ u, tagged? t = some ("task", u) ∧ taskOfTree? u = some (.task name label k)) ↔
      t.GivesTask name label k := by
  rw [Tree.givesTask_iff]
  refine exists_tagged?_iff (by decide) Record.keeps_taskMembers
    fun r (hat : ∀ k ∈ taskMembers, r.find? k = t.at? Tree.taskFields k) => ?_
  cases k
  simp only [Option.pure_def, Option.bind_eq_bind, Option.bind_eq_some_iff,
    Record.required_text_iff (hat "name" (by decide)),
    Record.withDefault_text_iff (hat "label" (by decide)),
    Record.withDefault_text_iff (hat "elementType" (by decide)),
    Record.withDefault_flag_iff (hat "start" (by decide)),
    Record.withDefault_flag_iff (hat "end" (by decide)),
    Record.withDefault_flag_iff (hat "block" (by decide)),
    Record.withDefault_nullable_iff (hat "next" (by decide)) Tree.text?_reads nofun,
    payload?_iff (hat "events" (by decide)), payload?_iff (hat "actors" (by decide)),
    Record.withDefault_nullable_iff (hat "request" (by decide)) Request.ofTree?_reads nofun,
    Record.withDefault_list_iff (hat "modelPatchField" (by decide)) Tree.text?_reads,
    Option.some.injEq, task.injEq, Task.mk.injEq, ↓existsAndEq, and_true]

theorem exists_gatewayOfTree?_iff {t : Tree} {g : DraftGateway} :
    (∃ u, tagged? t = some ("gateway", u) ∧ gatewayOfTree? u = some (.gateway g)) ↔
      t.GivesGateway g := by
  rw [Tree.givesGateway_iff]
  refine exists_tagged?_iff (by decide) (Record.keeps_of_not_mem gatewayMembers (by decide))
    fun r (hat : ∀ k ∈ gatewayMembers, r.find? k = t.at? Tree.gatewayFields k) => ?_
  cases g
  simp [Option.bind_eq_some_iff, Record.required_text_iff (hat "name" (by decide)),
    Record.withDefault_text_iff (hat "label" (by decide)),
    Record.withDefault_text_iff (hat "elementType" (by decide)),
    Record.required_iff (hat "gatewayCondition" (by decide)) DraftRule.ofTree?_reads,
    Record.withDefault_nullable_iff (hat "nextIsTrue" (by decide)) Tree.text?_reads nofun,
    Record.withDefault_nullable_iff (hat "nextIsFalse" (by decide)) Tree.text?_reads nofun]

theorem ofTree?_eq_some_iff {t : Tree} {d : DraftElement} :
    ofTree? t = some d ↔ t.Readable ∧
      ((∃ u, tagged? t = some ("task", u) ∧ taskOfTree? u = some d) ∨
        ∃ u, tagged? t = some ("gateway", u) ∧ gatewayOfTree? u = some d) := by
  rw [ofTree?, Option.ite_none_right_eq_some, Tree.readable_iff]
  refine and_congr_right fun _ => ?_
  split
  · rename_i htag
    simp [htag]
  · rename_i htag
    simp [htag]
  · rename_i htask hgateway
    refine iff_of_false nofun ?_
    rintro (⟨u, hu, -⟩ | ⟨u, hu, -⟩)
    · exact htask u hu
    · exact hgateway u hu

theorem taskOfTree?_ne_gateway (t : Tree) (g : DraftGateway) :
    taskOfTree? t ≠ some (.gateway g) := by
  unfold taskOfTree?
  repeat refine bind_ne_some fun _ => ?_
  nofun

theorem gatewayOfTree?_ne_task (t : Tree) (name label : String) (k : Task) :
    gatewayOfTree? t ≠ some (.task name label k) := by
  unfold gatewayOfTree?
  repeat refine bind_ne_some fun _ => ?_
  nofun

theorem ofTree?_reads : Tree.Reads ofTree? Tree.GivesElement := by
  intro t d
  rw [ofTree?_eq_some_iff]
  cases d with
  | task name label k =>
    simp only [gatewayOfTree?_ne_task, and_false, exists_false, or_false, exists_taskOfTree?_iff]
    constructor
    · rintro ⟨hreadable, h⟩
      exact .task hreadable h
    · intro h
      cases h with
      | task hreadable h => exact ⟨hreadable, h⟩
  | gateway g =>
    simp only [taskOfTree?_ne_gateway, and_false, exists_false, false_or,
      exists_gatewayOfTree?_iff]
    constructor
    · rintro ⟨hreadable, h⟩
      exact .gateway hreadable h
    · intro h
      cases h with
      | gateway hreadable h => exact ⟨hreadable, h⟩

end DraftElement

theorem Draft.ofTree?_reads : Tree.Reads ofTree? Tree.Gives := by
  intro t d
  rw [Tree.gives_iff]
  refine (Record.keeps_of_not_mem Tree.processFields (by decide)).bind_eq_some_iff
    fun r _ hat _ => ?_
  cases d
  simp [Option.bind_eq_some_iff, Record.required_text_iff (hat "name" (by decide)),
    Record.withDefault_text_iff (hat "label" (by decide)),
    Record.required_iff (hat "elements" (by decide)) DraftElement.ofTree?_reads.list]

end Workflow
