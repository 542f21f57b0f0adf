import Workflow.Proofs.JsonValue

/-! What the tree of a text can hold. At every place of it few enough arrays and objects are open, and
its whole numbers fit 64 bits; so the values that it names are read back from their own texts. -/

namespace Workflow

theorem Entries.mem_of_mem_sort {α : Type} {l : List (String × α)} {e : String × α}
    (h : e ∈ sort l) : e ∈ l := by
  obtain ⟨q, v⟩ := e
  rw [← find?_eq_some_iff (ascending_sort l).nodup_keys, find?_sort] at h
  exact List.mem_reverse.1 (mem_of_find?_eq_some h)

namespace Json

namespace Tree

/-- At most `depth` arrays and objects are open at one place, and whole numbers fit 64 bits. -/
inductive Within : Nat → Tree → Prop
  | null {d : Nat} : Within d .null
  | bool {d : Nat} (b : Bool) : Within d (.bool b)
  | whole {d : Nat} {n : Int} (h : (JsonNumber.whole n).Spelled) : Within d (.number (.whole n))
  | float {d : Nat} (x : Binary64) : Within d (.number (.float x))
  | text {d : Nat} (s : String) : Within d (.text s)
  | array {d : Nat} {ts : List Tree} (h : ∀ t ∈ ts, Within d t) : Within (d + 1) (.array ts)
  | object {d : Nat} {ms : List (String × Tree)} (h : ∀ m ∈ ms, Within d m.2) :
      Within (d + 1) (.object ms)
  | unreadable {d : Nat} : Within d .unreadable

theorem Within.mono {d e : Nat} {t : Tree} (h : t.Within d) (hle : d ≤ e) : t.Within e := by
  induction h generalizing e with
  | null => exact .null
  | bool b => exact .bool b
  | whole h => exact .whole h
  | float x => exact .float x
  | text s => exact .text s
  | unreadable => exact .unreadable
  | array _ ih =>
    obtain ⟨e, rfl⟩ : ∃ k, e = k + 1 := ⟨e - 1, by omega⟩
    exact .array fun t ht => ih t ht (by omega)
  | object _ ih =>
    obtain ⟨e, rfl⟩ : ∃ k, e = k + 1 := ⟨e - 1, by omega⟩
    exact .object fun m hm => ih m hm (by omega)

theorem Within.value {d : Nat} {t : Tree} (h : t.Within d) {v : Json} (hv : t.value? = some v) :
    v.Within d := by
  induction h generalizing v with
  | null => cases hv; exact .null
  | bool b => cases hv; exact .bool b
  | whole h => cases hv; exact .whole h
  | float x => cases hv; exact .float x
  | text s => cases hv; exact .text s
  | unreadable => cases hv
  | array _ ih =>
    obtain ⟨vs, hvs, rfl⟩ := Option.map_eq_some_iff.1 hv
    rw [values?_eq_mapM] at hvs
    exact .array (forall_mem_of_mapM hvs fun t ht v hv => ih t ht hv)
  | @object d ms _ ih =>
    obtain ⟨vs, hvs, rfl⟩ := Option.map_eq_some_iff.1 hv
    rw [memberValues?_eq_mapM] at hvs
    have hall : ∀ m ∈ vs, m.2.Within d := by
      refine forall_mem_of_mapM hvs fun u hu m hm => ?_
      obtain ⟨v, hv, rfl⟩ := Option.map_eq_some_iff.1 hm
      exact ih u hu hv
    exact .object (Entries.ascending_sort vs) fun m hm => hall m (Entries.mem_of_mem_sort hm)

end Tree

theorem absorb_lt {n : Nat} (h : n < wordLimit) (ds : List Nat) :
    (Literal.absorb n ds).1 < wordLimit := by
  induction ds generalizing n with
  | nil => exact h
  | cons d r ih =>
    rw [Literal.absorb]
    split
    · exact ih ‹_›
    · exact h

/-- Only a natural below `2 ^ 64`, or the negative of one up to `2 ^ 63`, is kept whole. -/
theorem spelled_of_number? {l : Literal} {n : Int} (h : l.number? = some (.whole n)) :
    (JsonNumber.whole n).Spelled := by
  have hlt := absorb_lt (by decide : 0 < wordLimit) l.whole
  unfold Literal.number? at h
  generalize Literal.absorb 0 l.whole = x at h hlt
  obtain ⟨m, unread⟩ := x
  simp only at h hlt
  unfold JsonNumber.Spelled
  split at h
  · split at h
    · cases h
      omega
    · split at h
      · cases h
        unfold wordLimit
        omega
      · cases h
  · obtain ⟨x, -, hx⟩ := Option.map_eq_some_iff.1 h
    cases hx

namespace Parser

theorem within_ofNumber (l : Literal) (d : Nat) : (ofNumber l.number?).Within d := by
  cases h : l.number? with
  | none => exact .unreadable
  | some n =>
    cases n with
    | whole n => exact .whole (spelled_of_number? h)
    | float x => exact .float x

theorem within_nested {d : Nat} {t : Tree} (h : t.Within (d - 1 + 1)) : (nested d t).Within d := by
  cases d with
  | zero => exact .unreadable
  | succ d => exact h

theorem within_object {d : Nat} {ms : List (Option String × Tree)} (h : ∀ m ∈ ms, m.2.Within d) :
    (object ms).Within (d + 1) := by
  unfold object
  split
  · rename_i l hl
    refine .object (forall_mem_of_mapM hl fun u hu m hm => ?_)
    obtain ⟨k, -, rfl⟩ := Option.map_eq_some_iff.1 hm
    exact h u hu
  · exact .unreadable

/-- At most `fuel` calls give nothing beyond the limits. -/
def ReadsWithin (fuel : Nat) : Prop :=
  ∀ (d : Nat) (cs : List Char) (t : Tree) (r : List Char),
    value fuel d cs = some (t, r) → t.Within d

-- The items come one after another, each by fewer calls than the rest with it.
theorem within_items {fuel : Nat} (h : ∀ f < fuel, ReadsWithin f) {d : Nat} {cs : List Char}
    {ts : List Tree} {r : List Char} (hread : items fuel d cs = some (ts, r)) :
    ∀ t ∈ ts, t.Within d := by
  induction fuel generalizing cs ts r with
  | zero => cases hread
  | succ fuel ih =>
    rw [items] at hread
    obtain ⟨⟨t, cs⟩, ht, hread⟩ := Option.bind_eq_some_iff.1 hread
    dsimp only at hread
    have ht := h fuel (Nat.lt_succ_self fuel) d _ _ _ ht
    split at hread
    · obtain ⟨⟨us, s⟩, hus, hread⟩ := Option.bind_eq_some_iff.1 hread
      cases hread
      exact List.forall_mem_cons.2 ⟨ht, ih (fun f hf => h f (by omega)) hus⟩
    · cases hread
      simpa using ht
    · cases hread

theorem within_members {fuel : Nat} (h : ∀ f < fuel, ReadsWithin f) {d : Nat} {cs : List Char}
    {ms : List (Option String × Tree)} {r : List Char} (hread : members fuel d cs = some (ms, r)) :
    ∀ m ∈ ms, m.2.Within d := by
  induction fuel generalizing cs ms r with
  | zero => cases hread
  | succ fuel ih =>
    rw [members] at hread
    split at hread
    · obtain ⟨⟨k, cs⟩, -, hread⟩ := Option.bind_eq_some_iff.1 hread
      dsimp only at hread
      split at hread
      · obtain ⟨⟨t, cs⟩, ht, hread⟩ := Option.bind_eq_some_iff.1 hread
        have ht := h fuel (Nat.lt_succ_self fuel) d _ _ _ ht
        split at hread
        · obtain ⟨⟨us, s⟩, hus, hread⟩ := Option.bind_eq_some_iff.1 hread
          cases hread
          exact List.forall_mem_cons.2 ⟨ht, ih (fun f hf => h f (by omega)) hus⟩
        · cases hread
          simpa using ht
        · cases hread
      · cases hread
    · cases hread

theorem value_within (fuel : Nat) : ReadsWithin fuel := by
  induction fuel using Nat.strongRecOn with
  | _ fuel ih =>
    intro d cs t r hread
    cases fuel with
    | zero => cases hread
    | succ fuel =>
      have hless (f : Nat) (hf : f < fuel) : ReadsWithin f := ih f (by omega)
      rw [value] at hread
      split at hread
      · cases hread
        exact .null
      · cases hread
        exact .bool true
      · cases hread
        exact .bool false
      · obtain ⟨⟨s, r⟩, -, hread⟩ := Option.bind_eq_some_iff.1 hread
        cases hread
        cases s with
        | none => exact .unreadable
        | some s => exact .text s
      · split at hread
        · cases hread
          exact within_nested (.array (List.forall_mem_nil _))
        · obtain ⟨⟨ts, r⟩, hts, hread⟩ := Option.bind_eq_some_iff.1 hread
          cases hread
          exact within_nested (.array (within_items hless hts))
      · split at hread
        · cases hread
          exact within_nested (.object (List.forall_mem_nil _))
        · obtain ⟨⟨ms, r⟩, hms, hread⟩ := Option.bind_eq_some_iff.1 hread
          cases hread
          exact within_nested (within_object (within_members hless hms))
      · obtain ⟨⟨l, r⟩, -, hread⟩ := Option.bind_eq_some_iff.1 hread
        cases hread
        exact within_ofNumber l d

end Parser

theorem Tree.within_of_parse? {s : String} {t : Tree} (h : parse? s = some t) :
    t.Within Parser.maxDepth := by
  unfold parse? at h
  split at h
  · rename_i u r hu
    split at h
    · cases h
      exact Parser.value_within _ _ _ _ _ hu
    · cases h
  · cases h

/-- What a text names is named by its own text too, so writing it again changes nothing more. -/
theorem parse?_render_of_parse? {s : String} {v : Json} (h : parse? s = some v)
    (hfloats : v.FloatsReadBack) : parse? v.render = some v := by
  obtain ⟨t, ht, hv⟩ := Option.bind_eq_some_iff.1 h
  exact parse?_render_of_within ((Tree.within_of_parse? ht).value hv) hfloats

end Json

end Workflow
