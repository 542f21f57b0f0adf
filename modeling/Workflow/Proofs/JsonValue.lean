import Workflow.Proofs.JsonText
import Workflow.Proofs.Keyed

/-! Values as texts. A value that is nested no deeper than a text may be is read back from its own
text, if its floating numbers are read back from theirs. -/

namespace Workflow

/-- The number is what its text names. -/
def Binary64.ReadsBack (x : Binary64) : Prop :=
  Json.parse? (Json.number (.float x)).render = some (.number (.float x))

theorem Entries.sort_of_ascending {α : Type} {l : List (String × α)} (h : Ascending l) :
    sort l = l := by
  have hsame : Keyed.ofList l = ⟨l, h⟩ := by
    refine Keyed.ext_find? fun q => ?_
    rw [Keyed.find?_ofList, find?_reverse h.nodup_keys, Keyed.find?]
  exact congrArg Keyed.entries hsame

namespace Json

/-- At most `depth` arrays and objects are open at one place. Members stand in ascending order of name,
and whole numbers fit 64 bits. -/
inductive Within : Nat → Json → Prop
  | null {d : Nat} : Within d .null
  | bool {d : Nat} (b : Bool) : Within d (.bool b)
  | whole {d : Nat} {n : Int} (h : (JsonNumber.whole n).Spelled) : Within d (.number (.whole n))
  | float {d : Nat} (x : Binary64) : Within d (.number (.float x))
  | text {d : Nat} (s : String) : Within d (.text s)
  | array {d : Nat} {items : List Json} (h : ∀ v ∈ items, Within d v) : Within (d + 1) (.array items)
  | object {d : Nat} {members : List (String × Json)} (ordered : Entries.Ascending members)
      (h : ∀ m ∈ members, Within d m.2) : Within (d + 1) (.object members)

/-- The value `u` stands somewhere in another. -/
inductive Part (u : Json) : Json → Prop
  | self : Part u u
  | item {v : Json} {items : List Json} (hv : v ∈ items) (h : Part u v) : Part u (.array items)
  | member {m : String × Json} {members : List (String × Json)} (hm : m ∈ members)
      (h : Part u m.2) : Part u (.object members)

/-- Every floating number in the value is what its text names. -/
def FloatsReadBack (v : Json) : Prop := ∀ x, Part (.number (.float x)) v → x.ReadsBack

theorem parse?_render_number (n : JsonNumber) :
    parse? (Json.number n).render = n.reread?.map .number := by
  rw [parse?, parse?_render, Option.bind_some, spelled]
  cases n.reread? <;> rfl

theorem reread?_of_readsBack {x : Binary64} (h : x.ReadsBack) :
    (JsonNumber.float x).reread? = some (.float x) := by
  rw [Binary64.ReadsBack, parse?_render_number] at h
  obtain ⟨n, hn, heq⟩ := Option.map_eq_some_iff.1 h
  cases heq
  exact hn

namespace Tree

theorem values?_eq_mapM (ts : List Tree) : values? ts = ts.mapM value? := by
  induction ts with
  | nil => rfl
  | cons t r ih =>
    rw [values?, ih, List.mapM_cons]
    cases t.value? <;> cases r.mapM value? <;> rfl

theorem memberValues?_eq_mapM (ms : List (String × Tree)) :
    memberValues? ms = ms.mapM fun m => m.2.value?.map (m.1, ·) := by
  induction ms with
  | nil => rfl
  | cons m r ih =>
    rw [memberValues?, ih, List.mapM_cons]
    cases m.2.value? <;> cases r.mapM (fun m => m.2.value?.map (m.1, ·)) <;> rfl

end Tree

theorem value?_spelled {d : Nat} {v : Json} (hv : v.Within d) (hfloats : v.FloatsReadBack) :
    (v.spelled d).value? = some v := by
  induction hv with
  | null | bool | text => rfl
  | whole h => rw [spelled, JsonNumber.reread?_whole h]; rfl
  | float x => rw [spelled, reread?_of_readsBack (hfloats x .self)]; rfl
  | @array d items h ih =>
    have hitems : (items.map (spelled d)).mapM Tree.value? = some items :=
      mapM_map_eq_some fun v hv => ih v hv fun x hx => hfloats x (.item hv hx)
    rw [spelled_array, Tree.value?, Tree.values?_eq_mapM, hitems]
    rfl
  | @object d members ordered h ih =>
    have hmembers : (members.map fun m => (m.1, m.2.spelled d)).mapM
        (fun m => m.2.value?.map (m.1, ·)) = some members := by
      refine mapM_map_eq_some fun m hm => ?_
      rw [ih m hm fun x hx => hfloats x (.member hm hx)]
      rfl
    rw [spelled_object, Tree.value?, Tree.memberValues?_eq_mapM, hmembers, Option.map_some,
      Entries.sort_of_ascending ordered]

/-- A value is read back from its own text. -/
theorem parse?_render_of_within {v : Json} (hv : v.Within Parser.maxDepth)
    (hfloats : v.FloatsReadBack) : parse? v.render = some v := by
  rw [parse?, parse?_render, Option.bind_some, value?_spelled hv hfloats]

end Json

/-- One half. -/
def Binary64.half : Binary64 := ⟨0x3FE0000000000000⟩

theorem Binary64.half_readsBack : half.ReadsBack := by
  have hprint : Json.Printer.number (.float half) = ['0', '.', '5'] := rfl
  have hscan : Json.Literal.scan ['0', '.', '5'] = some (⟨false, [0], [5], none⟩, []) := rfl
  have hnumber : (⟨false, [0], [5], none⟩ : Json.Literal).number? = some (.float half) := by
    decide +kernel
  rw [ReadsBack, Json.parse?_render_number, JsonNumber.reread?, hprint, hscan, Option.bind_some,
    hnumber, Option.map_some]

end Workflow
