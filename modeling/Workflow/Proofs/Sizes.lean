import Mathlib.Algebra.Group.Nat.Defs
import Mathlib.Tactic.MkIffOfInductiveProp
import Workflow.Artifact.Basic

/-! The sizes that an artifact can hold: texts of fewer than `2 ^ 64` bytes, lists of fewer items. They
are said about a process, without its bytes. -/

namespace Workflow

open Codec

def ShortText (s : String) : Prop := s.utf8ByteSize < 2 ^ 64

instance (s : String) : Decidable (ShortText s) := inferInstanceAs (Decidable (_ < _))

def ShortList {α : Type} (P : α → Prop) (l : List α) : Prop := l.length < 2 ^ 64 ∧ ∀ a ∈ l, P a

instance {α : Type} (P : α → Prop) [DecidablePred P] (l : List α) : Decidable (ShortList P l) :=
  inferInstanceAs (Decidable (_ ∧ _))

def Value.Sized : Value → Prop
  | text s => ShortText s
  | _ => True

instance : DecidablePred Value.Sized
  | .text s => inferInstanceAs (Decidable (ShortText s))
  | .number _ | .boolean _ => .isTrue trivial

@[mk_iff]
structure Condition.Sized (c : Condition) : Prop where
  field : ShortText c.field
  literal : c.literal.Sized

instance : DecidablePred Condition.Sized := fun c => decidable_of_iff' _ (Condition.sized_iff c)

def Group.Sized (g : Group) : Prop := ShortList Condition.Sized g.conditions

instance : DecidablePred Group.Sized := fun _ => inferInstanceAs (Decidable (ShortList _ _))

def Rule.Sized : Rule → Prop
  | single c => c.Sized
  | grouped _ groups => ShortList Group.Sized groups

instance : DecidablePred Rule.Sized
  | .single c => inferInstanceAs (Decidable c.Sized)
  | .grouped _ _ => inferInstanceAs (Decidable (ShortList _ _))

@[mk_iff]
structure QueryParameter.Sized (q : QueryParameter) : Prop where
  modelField : ShortText q.modelField
  parameter : ShortText q.parameter

instance : DecidablePred QueryParameter.Sized :=
  fun q => decidable_of_iff' _ (QueryParameter.sized_iff q)

@[mk_iff]
structure Request.Sized (r : Request) : Prop where
  url : ShortText r.url
  method : ShortText r.method
  queryParameters : ShortList QueryParameter.Sized r.queryParameters
  body : ShortList ShortText r.body

instance : DecidablePred Request.Sized := fun r => decidable_of_iff' _ (Request.sized_iff r)

@[mk_iff]
structure Task.Sized (t : Task) : Prop where
  elementType : ShortText t.elementType
  next : ∀ n ∈ t.next, ShortText n
  events : ShortText t.events.text
  actors : ShortText t.actors.text
  request : ∀ r ∈ t.request, r.Sized
  modelPatchFields : ShortList ShortText t.modelPatchFields

instance : DecidablePred Task.Sized := fun t => decidable_of_iff' _ (Task.sized_iff t)

@[mk_iff]
structure Gateway.Sized (g : Gateway) : Prop where
  elementType : ShortText g.elementType
  rule : g.rule.Sized
  nextIfTrue : ∀ n ∈ g.nextIfTrue, ShortText n
  nextIfFalse : ∀ n ∈ g.nextIfFalse, ShortText n

instance : DecidablePred Gateway.Sized := fun g => decidable_of_iff' _ (Gateway.sized_iff g)

def ElementKind.Sized : ElementKind → Prop
  | task t => t.Sized
  | gateway g => g.Sized

instance : DecidablePred ElementKind.Sized
  | .task t => inferInstanceAs (Decidable t.Sized)
  | .gateway g => inferInstanceAs (Decidable g.Sized)

@[mk_iff]
structure Element.Sized (e : Element) : Prop where
  name : ShortText e.name
  label : ShortText e.label
  kind : e.kind.Sized

instance : DecidablePred Element.Sized := fun e => decidable_of_iff' _ (Element.sized_iff e)

@[mk_iff]
structure Definition.Sized (p : Definition) : Prop where
  name : ShortText p.name
  label : ShortText p.label
  elements : ShortList Element.Sized p.elements

instance : DecidablePred Definition.Sized := fun p => decidable_of_iff' _ (Definition.sized_iff p)

namespace Codec

variable {α β : Type} {c : Codec α} {d : Codec β}

theorem text_fits_iff {s : String} : Codec.text.fits s ↔ ShortText s := by
  have hlength : (utf8 s).length = s.utf8ByteSize := Array.length_toList
  change (utf8 s).length < wordLimit ↔ _
  rw [hlength]
  rfl

theorem both_fits_iff {a : α} {b : β} : (c.both d).fits (a, b) ↔ c.fits a ∧ d.fits b := Iff.rfl

theorem via_fits_iff {view : α → β} {back : β → α} {b : β} :
    (c.via view back).fits b ↔ c.fits (back b) := Iff.rfl

theorem flag_fits_iff {b : Bool} : flag.fits b ↔ True := Iff.rfl

theorem oneOf_fits [DecidableEq α] {all : List α} (hall : all.length ≤ 2 ^ 32) {a : α}
    (ha : a ∈ all) : (oneOf all).fits a :=
  ⟨ha, Nat.lt_of_lt_of_le (List.idxOf_lt_length_of_mem ha) hall⟩

variable {P : α → Prop} (h : ∀ {a}, c.fits a ↔ P a)
include h

theorem list_fits_iff {l : List α} : (list c).fits l ↔ ShortList P l := by
  simp only [list, ShortList, h]
  rfl

theorem option_fits_iff {o : Option α} : (option c).fits o ↔ ∀ a ∈ o, P a := by
  simp only [option, h]

end Codec

theorem Value.codec_fits_iff {v : Value} : Value.codec.fits v ↔ v.Sized := by
  cases v <;> simp [Value.codec, Value.Sized, Codec.number, flag, text_fits_iff]

theorem Comparison.fits (c : Comparison) : (oneOf all).fits c :=
  oneOf_fits (by decide) (by cases c <;> decide)

theorem Condition.codec_fits_iff {c : Condition} : Condition.codec.fits c ↔ c.Sized := by
  simp only [codec, via_fits_iff, both_fits_iff, text_fits_iff, Comparison.fits,
    Value.codec_fits_iff, true_and, sized_iff]

theorem Connective.codec_fits (c : Connective) : codec.fits c :=
  oneOf_fits (by decide) (by cases c <;> decide)

theorem Group.codec_fits_iff {g : Group} : Group.codec.fits g ↔ g.Sized := by
  simp only [codec, via_fits_iff, both_fits_iff, Connective.codec_fits,
    list_fits_iff Condition.codec_fits_iff, true_and, Sized]

theorem Rule.codec_fits_iff {r : Rule} : Rule.codec.fits r ↔ r.Sized := by
  cases r with
  | single c => exact Condition.codec_fits_iff
  | grouped c groups =>
    exact (and_iff_right (Connective.codec_fits c)).trans (list_fits_iff Group.codec_fits_iff)

theorem Payload.codec_fits_iff {p : Payload} : Payload.codec.fits p ↔ ShortText p.text :=
  text_fits_iff

theorem QueryParameter.codec_fits_iff {q : QueryParameter} :
    QueryParameter.codec.fits q ↔ q.Sized := by
  simp only [codec, via_fits_iff, both_fits_iff, text_fits_iff, sized_iff]

theorem Request.codec_fits_iff {r : Request} : Request.codec.fits r ↔ r.Sized := by
  simp only [codec, via_fits_iff, both_fits_iff, text_fits_iff,
    list_fits_iff QueryParameter.codec_fits_iff, list_fits_iff text_fits_iff, sized_iff]

theorem Task.codec_fits_iff {t : Task} : Task.codec.fits t ↔ t.Sized := by
  simp only [codec, via_fits_iff, both_fits_iff, text_fits_iff, flag_fits_iff,
    option_fits_iff text_fits_iff, Payload.codec_fits_iff,
    option_fits_iff Request.codec_fits_iff, list_fits_iff text_fits_iff, true_and, sized_iff]

theorem Gateway.codec_fits_iff {g : Gateway} : Gateway.codec.fits g ↔ g.Sized := by
  simp only [codec, via_fits_iff, both_fits_iff, text_fits_iff, Rule.codec_fits_iff,
    option_fits_iff text_fits_iff, sized_iff]

theorem ElementKind.codec_fits_iff {k : ElementKind} : ElementKind.codec.fits k ↔ k.Sized := by
  cases k with
  | task t => exact Task.codec_fits_iff
  | gateway g => exact Gateway.codec_fits_iff

theorem Element.codec_fits_iff {e : Element} : Element.codec.fits e ↔ e.Sized := by
  simp only [codec, via_fits_iff, both_fits_iff, text_fits_iff, ElementKind.codec_fits_iff,
    sized_iff]

/-- A process fits just if its texts and lists are short. -/
theorem Definition.codec_fits_iff {p : Definition} : Definition.codec.fits p ↔ p.Sized := by
  simp only [codec, via_fits_iff, both_fits_iff, text_fits_iff,
    list_fits_iff Element.codec_fits_iff, sized_iff]

theorem Artifact.versioned_fits_iff {v : Nat} {p : Definition} :
    versioned.fits (v, p) ↔ v < 2 ^ 32 ∧ p.Sized :=
  and_congr_right fun _ => Definition.codec_fits_iff

end Workflow
